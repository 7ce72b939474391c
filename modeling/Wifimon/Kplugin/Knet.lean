/-
  `src/kplugin/knet.c`: the socket of the network recorder.

  `ksceNetSocket` answers any integer; a non-negative answer is a socket that is open until
  `ksceNetClose` is called on it. `KnetState.log` records every creation and every call of
  `ksceNetClose`, also on handles that are not open. Of `knet_tgt` only the port is kept: the
  address family and the loopback address are constants of the SDK.
-/
import Wifimon.Lib.Bytes

namespace Wifimon.Knet

inductive SockEvent where
  | created (fd : Int)
  | closed (fd : Int)
  deriving DecidableEq

structure KnetState where
  knetFd : Int
  tgtPort : UInt16
  sockets : List Int
  log : List SockEvent

def KnetState.start : KnetState := ⟨-1, 0, [], []⟩

/-- `ksceNetHtons` on a little-endian machine. -/
def htons (x : UInt16) : UInt16 := x <<< 8 ||| x >>> 8

/-- `ksceNetSocket` answering `fd`. -/
def netSocket (fd : Int) (s : KnetState) : KnetState :=
  if 0 ≤ fd then { s with sockets := fd :: s.sockets, log := s.log ++ [.created fd] } else s

def netClose (fd : Int) (s : KnetState) : KnetState :=
  { s with sockets := s.sockets.erase fd, log := s.log ++ [.closed fd] }

def knetStart (port : UInt16) (fd : Int) (s : KnetState) : Int × KnetState :=
  let s := { netSocket fd s with knetFd := fd }
  if s.knetFd < 0 then (-1, s) else (0, { s with tgtPort := htons port })

/-- The source closes `knet_fd` whatever it holds. -/
def knetStop (s : KnetState) : KnetState := { netClose s.knetFd s with knetFd := -1 }

/-- `knet_start` succeeds if and only if the socket call does; it leaves its answer in
    `knet_fd`. -/
theorem knetStart_ret (port : UInt16) (fd : Int) (s : KnetState) :
    (knetStart port fd s).1 = 0 ↔ 0 ≤ fd := by
  unfold knetStart
  dsimp only
  by_cases h : fd < 0
  · rw [if_pos h]
    show (-1 : Int) = 0 ↔ _
    omega
  · rw [if_neg h]
    show (0 : Int) = 0 ↔ _
    omega

theorem knetStart_fd (port : UInt16) (fd : Int) (s : KnetState) :
    (knetStart port fd s).2.knetFd = fd ∧ (0 ≤ fd → fd ∈ (knetStart port fd s).2.sockets) := by
  unfold knetStart
  dsimp only
  by_cases h : fd < 0
  · rw [if_pos h]
    exact ⟨rfl, fun h0 => absurd h0 (Int.not_le.mpr h)⟩
  · rw [if_neg h]
    refine ⟨rfl, fun h0 => ?_⟩
    show fd ∈ (netSocket fd s).sockets
    unfold netSocket
    rw [if_pos h0]
    exact List.mem_cons_self ..

end Wifimon.Knet
