import Wifimon.Firmware.Spew
import Wifimon.Kplugin.Ioctl
import Wifimon.Kplugin.PcapFraming
import Wifimon.Kplugin.Respose
import Wifimon.Kplugin.Stats
import Wifimon.App.Util
import Wifimon.App.Patch
import Wifimon.Elf.Crc
import Wifimon.Elf.Headers
import Wifimon.Firmware.Mkelf
import Wifimon.Firmware.Image
import Wifimon.Firmware.Blocks
import Wifimon.Firmware.Faithful
import Wifimon.App.Dump
import Wifimon.Dump.Bin2elf
import Wifimon.Dump.Agreement
import Wifimon.Lib.Handles
import Wifimon.Kplugin.ModuleStop
import Wifimon.Lib.Flags
import Wifimon.Kplugin.Lifecycle
import Wifimon.Kplugin.Unload
import Wifimon.Kplugin.Results
import Wifimon.Kplugin.IoctlBuffer
import Wifimon.Kplugin.MacControl
import Wifimon.App.WordMem
import Wifimon.App.Undo
import Wifimon.Kplugin.Resources
import Wifimon.Kplugin.IoctlSuccess
import Wifimon.Kplugin.KnetWrite
import Wifimon.Kplugin.PcapRaw
import Wifimon.App.DumpReport
import Wifimon.Elf.Tables
import Wifimon.Lib.Division
import Wifimon.Elf.CrcDivision
import Wifimon.Firmware.Checksum
import Wifimon.Kplugin.Radio
import Wifimon.Firmware.Encode
import Wifimon.App.Stack
import Wifimon.App.Control
import Wifimon.Dump.Pipeline
import Wifimon.Lib.Edges
import Wifimon.App.Session
import Wifimon.App.SessionState
import Wifimon.Lib.Mutex
import Wifimon.Kplugin.Atomic
import Wifimon.Lib.Hex
import Wifimon.Firmware.Listing
import Wifimon.Lib.Resend
import Wifimon.Driver.FwImage
import Wifimon.Driver.ProgFw
import Wifimon.Driver.IfUsb
import Wifimon.Driver.SdioFw
import Wifimon.Driver.Readers
import Wifimon.Driver.PcieFw
