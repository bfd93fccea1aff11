import Mathlib.Data.List.Basic

/-! The wire format of Typedef.h. A packet in memory is the list of the bytes of
its allocation; `int` fields are little-endian and two's complement. -/
namespace Sometest.Net

abbrev Byte := UInt8

/-- Ways in which the C++ code leaves its defined behaviour or ends the process.
`bound` is none of them: a loop of the model ran out of its iteration bound. -/
inductive Fault where
  | assertion
  | outOfBounds
  | nullPointer
  | badAlloc
  | bound
  deriving DecidableEq, Repr

@[simp] theorem ok_bind {α β : Type} (x : α) (f : α → Except Fault β) :
    (Except.ok x >>= f) = f x := rfl

@[simp] theorem error_bind {α β : Type} (fault : Fault) (f : α → Except Fault β) :
    ((Except.error fault : Except Fault α) >>= f) = .error fault := rfl

/-- A computation that has an outcome went through all its steps. -/
theorem bind_eq_ok {α β : Type} {x : Except Fault α} {f : α → Except Fault β} {out : β} :
    (x >>= f) = .ok out ↔ ∃ a, x = .ok a ∧ f a = .ok out := by
  cases x with
  | error fault => simp
  | ok a => simp

inductive Opcode where
  | SMSG_A
  | CMSG_A
  | SMSG_B
  | CMSG_B
  deriving DecidableEq, Repr

def Opcode.toNat : Opcode → Nat
  | .SMSG_A => 0
  | .CMSG_A => 1
  | .SMSG_B => 2
  | .CMSG_B => 3

def littleEndian : List Byte → Nat
  | [] => 0
  | b :: rest => b.toNat + 256 * littleEndian rest

def toLittleEndian : Nat → Nat → List Byte
  | 0, _ => []
  | k + 1, n => UInt8.ofNat (n % 256) :: toLittleEndian k (n / 256)

@[simp] theorem toLittleEndian_length (k n : Nat) : (toLittleEndian k n).length = k := by
  induction k generalizing n with
  | zero => rfl
  | succ k ih => simp only [toLittleEndian, List.length_cons, ih]

/-- The value of a 32-bit `int` with these bytes. -/
def int32 (bytes : List Byte) : Int := (littleEndian bytes : Int).bmod 4294967296

/-- `sizeof(NetPacketHeader)`. -/
def headerSize : Nat := 8

def packetOpcode (packet : List Byte) : Int := int32 (packet.take 4)

def packetSize (packet : List Byte) : Int := int32 ((packet.drop 4).take 4)

/-- The header that the constructors of the packet structs fill in. -/
def packetHeader (opcode : Opcode) (size : Nat) : List Byte :=
  toLittleEndian 4 opcode.toNat ++ toLittleEndian 4 size

/-- `sizeof(CNetPacketA)`, and of `SNetPacketA`. -/
def packetASize : Nat := headerSize + 16

/-- `sizeof(CNetPacketB)`, and of `SNetPacketB`. -/
def packetBSize : Nat := headerSize + 32

@[simp] theorem packetHeader_length (opcode : Opcode) (size : Nat) :
    (packetHeader opcode size).length = headerSize := by simp [packetHeader, headerSize]

theorem packetSize_take (packet : List Byte) (n : Nat) (long : headerSize ≤ n) :
    packetSize (packet.take n) = packetSize packet := by
  have four : min 4 (n - 4) = 4 := by simp only [headerSize] at long; omega
  simp only [packetSize, List.drop_take, List.take_take, four]

/-- The value after a compare-and-swap, and whether it took place. -/
def compareAndSwap (value newValue oldValue : Nat) : Nat × Bool :=
  if value = oldValue then (newValue, true) else (value, false)

end Sometest.Net
