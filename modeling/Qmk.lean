import Qmk.Memory
import Qmk.WearLeveling.LogEntry
import Qmk.WearLeveling.Driver
import Qmk.WearLeveling.Playback
import Qmk.WearLeveling.Append
import Qmk.WearLeveling.LogReady
import Qmk.WearLeveling.Steps
import Qmk.WearLeveling.FlatArray
import Qmk.Monitor
import Qmk.WearLeveling.WriteOnce
import Qmk.WearLeveling.PowerLoss
import Qmk.WearLeveling.Faults
import Qmk.WearLeveling.Bounds
import Qmk.WearLeveling.Locking
import Qmk.Tapping.Engine
import Qmk.Tapping.Outcome
import Qmk.Tapping.Runs
import Qmk.Tapping.Conservation
import Qmk.Tapping.PressOrder
import Qmk.Tapping.Agreement
import Qmk.Tapping.OwedTaps
import Qmk.Tapping.RegisteredTaps
import Qmk.Tapping.SettledTaps
import Qmk.Sweep
import Qmk.Debounce.Scan
import Qmk.Debounce.Cells
import Qmk.Debounce.Keys
import Qmk.Debounce.SymDeferPk
import Qmk.Debounce.AsymEagerDeferPk
import Qmk.Debounce.SymEager
import Qmk.Secure
import Qmk.RepeatKey
import Qmk.LegacyEeprom.Driver
import Qmk.LegacyEeprom.Entries
import Qmk.LegacyEeprom.Image
import Qmk.LegacyEeprom.Writers
import Qmk.LegacyEeprom.Synced
import Qmk.LegacyEeprom.Runs
import Qmk.LegacyEeprom.FlatArray
import Qmk.LegacyEeprom.TornWrites
import Qmk.Combos.Engine
import Qmk.Combos.Keys
import Qmk.Combos.Steps
import Qmk.Combos.Conservation
import Qmk.Combos.Fates
import Qmk.Combos.Tracking
import Qmk.Combos.Releases
import Qmk.LayerState
import Qmk.LayerLock
import Qmk.Achordion
import Qmk.TapDance
import Qmk.Oryx
import Qmk.Oryx.Bounds
import Qmk.Painter.Stream
import Qmk.Painter.Rle
import Qmk.Painter.Pixels
import Qmk.Painter.Blocks
import Qmk.Painter.Qff
import Qmk.Painter.QffLookup
import Qmk.Painter.Surface
import Qmk.Painter.Qgf
import Qmk.Painter.QgfEncoder
import Qmk.Painter.QgfReader
import Qmk.Painter.QgfPlay
import Qmk.RingBuffer
import Qmk.EncoderSplit
import Qmk.Achordion.Positions
import Qmk.Combos.Stranded
import Qmk.Selection
import Qmk.Combos.Selection
import Qmk.RingReport
import Qmk.WordTable
import Qmk.DynamicKeymap
import Qmk.DeferredExec
import Qmk.Painter.Animations
import Qmk.KeyOverride
import Qmk.KeyOverride.Deferred
import Qmk.KeyOverride.Inverse
import Qmk.BothEnds
import Qmk.DynamicMacro
import Qmk.DynamicMacro.Refinement
import Qmk.DynamicMacro.Playing
import Qmk.DynamicMacro.Nesting
import Qmk.Text
import Qmk.CLexer
import Qmk.KeymapC
import Qmk.KeymapC.Scan
import Qmk.KeymapC.RoundTrip
import Qmk.Debounce.SymDefer
import Qmk.Debounce.Convergence
import Qmk.DeferredExec.Nested
import Qmk.DeferredExec.OnTime
import Qmk.Moonlander
import Qmk.Sequencer
import Qmk.Footprint
import Qmk.Via
import Qmk.Oneshot.Layers
import Qmk.Oneshot.Mods
import Qmk.AutoShift
import Qmk.AutoShift.Delivery
import Qmk.AutoShift.HeldShift
import Qmk.AutoShift.HoldTime
import Qmk.CapsWord
import Qmk.CapsWord.HeldMods
import Qmk.WearLeveling.Corrupt
import Qmk.LegacyEeprom.Rejected
import Qmk.SendString
import Qmk.TypedText
import Qmk.DynamicKeymap.MacroSend
import Qmk.KeymapC.Macros
import Qmk.KeymapC.MacroStrings
import Qmk.I2cEeprom
import Qmk.SlaveMatrix
import Qmk.Midi
import Qmk.SwapHands.Engine
import Qmk.SwapHands.Balance
import Qmk.Autocorrect.Generator
import Qmk.Autocorrect.Lookup
import Qmk.Autocorrect.Process
import Qmk.Autocorrect.Table
import Qmk.Autocorrect.Bounds
import Qmk.Autocorrect.Replacement
import Qmk.DynamicKeymap.MacroReads
import Qmk.Utf8
import Qmk.Unicode
import Qmk.Unicode.Typing
import Qmk.Ucis
import Qmk.Ucis.Finish
import Qmk.Painter.Truncated
import Qmk.Painter.Validation
import Qmk.Painter.Rect
import Qmk.Painter.Line
import Qmk.Painter.Circle
import Qmk.Painter.Appenders
import Qmk.Wpm
import Qmk.MouseKeys
import Qmk.MouseKeys.Kinetic
import Qmk.Gf2
import Qmk.Crc
import Qmk.KeyLock
import Qmk.EncoderPulses
import Qmk.HeldKeys
import Qmk.Steno
import Qmk.Steno.Strokes
import Qmk.PointingDevice
import Qmk.PointingDevice.Buttons
import Qmk.AutoMouse
import Qmk.AutoMouse.Tracker
import Qmk.AutoMouse.Clock
import Qmk.SourceLayers
import Qmk.Tapping.ReleaseLayers
import Qmk.Keyboard.Report
import Qmk.Keyboard.Actions
import Qmk.Keyboard.Footprint
import Qmk.Keyboard.Records
import Qmk.Keyboard.MatrixTask
import Qmk.Throttle
import Qmk.Split.Sync
import Qmk.Split.Pull
import Qmk.Split.Connection
import Qmk.NorMemory
import Qmk.SpiFlash
import Qmk.WearLeveling.SpiStore
import Qmk.Oled
import Qmk.Oled.Windows
import Qmk.Oled.Tracking
import Qmk.Oled.Rounds
import Qmk.Oled.Text
import Qmk.RgbMatrix
import Qmk.RgbMatrix.Frames
import Qmk.RgbMatrix.Dark
import Qmk.RgbMatrix.Hits
