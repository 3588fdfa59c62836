import Chip8.Main
import Chip8.Proofs.Display.Drawing
import Chip8.Proofs.Engine.Buzzer
import Chip8.Proofs.Engine.Counter
import Chip8.Proofs.Engine.Fault
import Chip8.Proofs.Engine.Foreground
import Chip8.Proofs.Engine.Halt
import Chip8.Proofs.Engine.Interruption
import Chip8.Proofs.Engine.Load
import Chip8.Proofs.Engine.Loading
import Chip8.Proofs.Engine.Outward
import Chip8.Proofs.Engine.Rate
import Chip8.Proofs.Engine.Restart
import Chip8.Proofs.Engine.Scheduler
import Chip8.Proofs.Engine.Silence
import Chip8.Proofs.Engine.Slicing
import Chip8.Proofs.Engine.Starvation
import Chip8.Proofs.Frame.Upscale
import Chip8.Proofs.Instruction.Disassembly
import Chip8.Proofs.Keypad.Queue
import Chip8.Proofs.Machine.Arithmetic
import Chip8.Proofs.Machine.Confinement
import Chip8.Proofs.Machine.Frames
import Chip8.Proofs.Machine.KeyWait
import Chip8.Proofs.Machine.Listing
import Chip8.Proofs.Machine.Nesting
import Chip8.Proofs.Machine.Reset
import Chip8.Proofs.Machine.ReturnStack
import Chip8.Proofs.Machine.Timers
import Chip8.Proofs.Machine.Transfer
import Chip8.Proofs.Memory.Reading
import Chip8.Proofs.Memory.Storage
import Chip8.Proofs.Session.Buzzer
import Chip8.Proofs.Session.Caption
import Chip8.Proofs.Session.Trace
