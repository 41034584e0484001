import StackMachine.Word

/-!
# Operations and opcodes

The instruction set has 36 opcodes (specification, §4.1). Twenty-two of them only compute: they
replace one or two words on top of the operand stack by one word (§4.3). Those are grouped by what
they take: `UnaryOp` with `UnaryOp.eval`, and `BinaryOp` with `BinaryOp.eval?`.

Each opcode has a number (`code`, `ofCode?`), which is its place in `Opcode.all`, and a mnemonic
(`mnemonic`, `ofMnemonic?`).
-/

namespace StackMachine

/-! ## Computation -/

/-- Operations on one word. -/
inductive UnaryOp where
  | neg | not | shl | shr | sar
  deriving DecidableEq, Repr

/-- Negation wraps, `not` complements every bit, and the shifts move by one place: `shr` fills
with zero, `sar` with the sign (§4.3). -/
def UnaryOp.eval : UnaryOp → Word → Word
  | .neg, v => -v
  | .not, v => ~~~v
  | .shl, v => v <<< 1
  | .shr, v => (v.toUInt32 >>> 1).toInt32
  | .sar, v => v >>> 1

/-- Operations on two words. The names ending in `b` work bit by bit; `or` and `and` look only at
whether a word is zero. -/
inductive BinaryOp where
  | add | sub | mpy | div | mod
  | or | and
  | eq | ne | gt | ge | lt | le
  | orb | andb | xorb
  deriving DecidableEq, Repr

/-- The result of an operation on its left and right operand; there is none for a division by
zero. Arithmetic wraps, and division truncates toward zero (§4.3). -/
def BinaryOp.eval? : BinaryOp → Word → Word → Option Word
  | .add, l, r => some (l + r)
  | .sub, l, r => some (l - r)
  | .mpy, l, r => some (l * r)
  | .div, l, r => if r = 0 then none else some (l / r)
  | .mod, l, r => if r = 0 then none else some (l % r)
  | .or, l, r => some (.ofBool (l ≠ 0 ∨ r ≠ 0))
  | .and, l, r => some (.ofBool (l ≠ 0 ∧ r ≠ 0))
  | .eq, l, r => some (.ofBool (l = r))
  | .ne, l, r => some (.ofBool (l ≠ r))
  | .gt, l, r => some (.ofBool (l > r))
  | .ge, l, r => some (.ofBool (l ≥ r))
  | .lt, l, r => some (.ofBool (l < r))
  | .le, l, r => some (.ofBool (l ≤ r))
  | .orb, l, r => some (l ||| r)
  | .andb, l, r => some (l &&& r)
  | .xorb, l, r => some (l ^^^ r)

/-! ## Opcodes -/

/-- What an instruction does. -/
inductive Opcode where
  | halt
  | push | rvalue | lvalue | pop | sto | copy
  | unary (op : UnaryOp)
  | binary (op : BinaryOp)
  | label | goto | gofalse | gotrue
  | print | read
  | gosub | ret
  deriving DecidableEq, Repr

namespace Opcode

/-- Every opcode, in numeric order. -/
def all : Array Opcode := #[
  .halt, .push, .rvalue, .lvalue, .pop, .sto, .copy,
  .binary .add, .binary .sub, .binary .mpy, .binary .div, .binary .mod, .unary .neg, .unary .not,
  .binary .or, .binary .and,
  .binary .eq, .binary .ne, .binary .gt, .binary .ge, .binary .lt, .binary .le,
  .label, .goto, .gofalse, .gotrue, .print, .read, .gosub, .ret,
  .binary .orb, .binary .andb, .binary .xorb, .unary .shl, .unary .shr, .unary .sar]

/-- The number of the last opcode. -/
def maxCode : UInt16 := 35

/-- The number of an opcode (§4.1). -/
def code : Opcode → UInt16
  | .halt => 0
  | .push => 1
  | .rvalue => 2
  | .lvalue => 3
  | .pop => 4
  | .sto => 5
  | .copy => 6
  | .binary .add => 7
  | .binary .sub => 8
  | .binary .mpy => 9
  | .binary .div => 10
  | .binary .mod => 11
  | .unary .neg => 12
  | .unary .not => 13
  | .binary .or => 14
  | .binary .and => 15
  | .binary .eq => 16
  | .binary .ne => 17
  | .binary .gt => 18
  | .binary .ge => 19
  | .binary .lt => 20
  | .binary .le => 21
  | .label => 22
  | .goto => 23
  | .gofalse => 24
  | .gotrue => 25
  | .print => 26
  | .read => 27
  | .gosub => 28
  | .ret => 29
  | .binary .orb => 30
  | .binary .andb => 31
  | .binary .xorb => 32
  | .unary .shl => 33
  | .unary .shr => 34
  | .unary .sar => 35

/-- The opcode with a number, if there is one. -/
def ofCode? (n : UInt16) : Option Opcode := all[n.toNat]?

/-- The name of an opcode in listings. -/
def mnemonic : Opcode → String
  | .halt => "HALT"
  | .push => "PUSH"
  | .rvalue => "RVALUE"
  | .lvalue => "LVALUE"
  | .pop => "POP"
  | .sto => "STO"
  | .copy => "COPY"
  | .binary .add => "ADD"
  | .binary .sub => "SUB"
  | .binary .mpy => "MPY"
  | .binary .div => "DIV"
  | .binary .mod => "MOD"
  | .unary .neg => "NEG"
  | .unary .not => "NOT"
  | .binary .or => "OR"
  | .binary .and => "AND"
  | .binary .eq => "EQ"
  | .binary .ne => "NE"
  | .binary .gt => "GT"
  | .binary .ge => "GE"
  | .binary .lt => "LT"
  | .binary .le => "LE"
  | .label => "LABEL"
  | .goto => "GOTO"
  | .gofalse => "GOFALSE"
  | .gotrue => "GOTRUE"
  | .print => "PRINT"
  | .read => "READ"
  | .gosub => "GOSUB"
  | .ret => "RET"
  | .binary .orb => "ORB"
  | .binary .andb => "ANDB"
  | .binary .xorb => "XORB"
  | .unary .shl => "SHL"
  | .unary .shr => "SHR"
  | .unary .sar => "SAR"

/-- The opcode with exactly this mnemonic, if there is one. -/
def ofMnemonic? (name : String) : Option Opcode := all.find? (·.mnemonic == name)

/-- Whether the operand of an instruction with this opcode means anything (§4.1). -/
def takesOperand : Opcode → Bool
  | .push | .rvalue | .lvalue | .goto | .gofalse | .gotrue | .gosub => true
  | _ => false

/-! ## Small laws -/

/-- Reading the number of an opcode gives the opcode. -/
@[simp] theorem ofCode?_code (op : Opcode) : ofCode? op.code = some op := by
  rcases op with _ | _ | _ | _ | _ | _ | _ | ⟨⟨⟩⟩ | ⟨⟨⟩⟩ | _ | _ | _ | _ | _ | _ | _ | _ <;> rfl

/-- Reading the mnemonic of an opcode gives the opcode. -/
@[simp] theorem ofMnemonic?_mnemonic (op : Opcode) : ofMnemonic? op.mnemonic = some op := by
  rcases op with _ | _ | _ | _ | _ | _ | _ | ⟨⟨⟩⟩ | ⟨⟨⟩⟩ | _ | _ | _ | _ | _ | _ | _ | _ <;> rfl

end Opcode

end StackMachine
