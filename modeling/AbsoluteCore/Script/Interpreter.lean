/-
The script interpreter, `EvalScript` and `VerifyScript`.

The flags are those of the mixing server, `SCRIPT_VERIFY_P2SH |
SCRIPT_VERIFY_STRICTENC`: signatures and keys must be well encoded, the two lock
time opcodes are the NOPs they once were, and pushes need not be minimal.  A stack
is a list with its top first.  Every way for a script to fail is `none`: the
callers modelled here do not read the `ScriptError`.
-/
import AbsoluteCore.Evo.Payloads

namespace Absolute

namespace Script

/-- `valtype`, an element of the stack. -/
abbrev Valtype := List UInt8

/-- The hash functions behind the opcodes. -/
structure Hashes where
  ripemd160 : Valtype → Valtype
  sha1 : Valtype → Valtype
  sha256 : Valtype → Valtype
  hash160 : Valtype → Valtype
  hash256 : Valtype → Valtype

/-- `BaseSignatureChecker::CheckSig(vchSig, vchPubKey, scriptCode)`. -/
abbrev SignatureChecker := Valtype → Valtype → CScript → Bool

def maxScriptElementSize : Nat := 520

def maxOpsPerScript : Nat := 201

def maxPubkeysPerMultisig : Nat := 20

def maxScriptSize : Nat := 10000

/-! ### Opcodes -/

/-- The opcodes from one number to one number. -/
inductive UnaryOp where
  | add1
  | sub1
  | negate
  | abs
  | not
  | notEqual0
deriving DecidableEq, Repr

/-- The opcodes from two numbers to one number. -/
inductive BinaryOp where
  | add
  | sub
  | boolAnd
  | boolOr
  | numEqual
  | numNotEqual
  | lessThan
  | greaterThan
  | lessThanOrEqual
  | greaterThanOrEqual
  | min
  | max
deriving DecidableEq, Repr

/-- `opcodetype`, by what `EvalScript` does with it. -/
inductive OpCode where
  /-- `OP_0` to `OP_PUSHDATA4`. -/
  | pushData
  /-- `OP_1NEGATE` and `OP_1` to `OP_16`. -/
  | number (n : Int)
  /-- `OP_NOP`, the expansion NOPs and the two lock time opcodes. -/
  | nop
  | opIf
  | opNotIf
  | opElse
  | opEndIf
  | verify
  | opReturn
  | toAltStack
  | fromAltStack
  | drop2
  | dup2
  | dup3
  | over2
  | rot2
  | swap2
  | ifDup
  | depth
  | drop
  | dup
  | nip
  | over
  | pick
  | roll
  | rot
  | swap
  | tuck
  | size
  | equal
  | equalVerify
  | unary (op : UnaryOp)
  | binary (op : BinaryOp)
  | numEqualVerify
  | within
  | ripemd160
  | sha1
  | sha256
  | hash160
  | hash256
  | codeSeparator
  | checkSig
  | checkSigVerify
  | checkMultiSig
  | checkMultiSigVerify
  /-- `OP_CAT` and the others that fail a script even where they are not executed. -/
  | disabled
  /-- Whatever the `switch` does not name. -/
  | bad
deriving DecidableEq, Repr

/-- The bytes of the opcodes above `OP_16`. -/
def opCodes : List (Nat × OpCode) :=
  [(0x61, .nop), (0x63, .opIf), (0x64, .opNotIf), (0x67, .opElse), (0x68, .opEndIf),
    (0x69, .verify), (0x6a, .opReturn),
    (0x6b, .toAltStack), (0x6c, .fromAltStack), (0x6d, .drop2), (0x6e, .dup2), (0x6f, .dup3),
    (0x70, .over2), (0x71, .rot2), (0x72, .swap2), (0x73, .ifDup), (0x74, .depth), (0x75, .drop),
    (0x76, .dup), (0x77, .nip), (0x78, .over), (0x79, .pick), (0x7a, .roll), (0x7b, .rot),
    (0x7c, .swap), (0x7d, .tuck),
    (0x7e, .disabled), (0x7f, .disabled), (0x80, .disabled), (0x81, .disabled), (0x82, .size),
    (0x83, .disabled), (0x84, .disabled), (0x85, .disabled), (0x86, .disabled),
    (0x87, .equal), (0x88, .equalVerify),
    (0x8b, .unary .add1), (0x8c, .unary .sub1), (0x8d, .disabled), (0x8e, .disabled),
    (0x8f, .unary .negate), (0x90, .unary .abs), (0x91, .unary .not), (0x92, .unary .notEqual0),
    (0x93, .binary .add), (0x94, .binary .sub), (0x95, .disabled), (0x96, .disabled),
    (0x97, .disabled), (0x98, .disabled), (0x99, .disabled),
    (0x9a, .binary .boolAnd), (0x9b, .binary .boolOr), (0x9c, .binary .numEqual),
    (0x9d, .numEqualVerify), (0x9e, .binary .numNotEqual), (0x9f, .binary .lessThan),
    (0xa0, .binary .greaterThan), (0xa1, .binary .lessThanOrEqual),
    (0xa2, .binary .greaterThanOrEqual), (0xa3, .binary .min), (0xa4, .binary .max),
    (0xa5, .within), (0xa6, .ripemd160), (0xa7, .sha1), (0xa8, .sha256), (0xa9, .hash160),
    (0xaa, .hash256), (0xab, .codeSeparator), (0xac, .checkSig), (0xad, .checkSigVerify),
    (0xae, .checkMultiSig), (0xaf, .checkMultiSigVerify),
    (0xb0, .nop), (0xb1, .nop), (0xb2, .nop), (0xb3, .nop), (0xb4, .nop), (0xb5, .nop),
    (0xb6, .nop), (0xb7, .nop), (0xb8, .nop), (0xb9, .nop)]

def OpCode.ofByte (opcode : Nat) : OpCode :=
  if opcode ≤ 0x4e then .pushData
  else if opcode = 0x4f ∨ (0x51 ≤ opcode ∧ opcode ≤ 0x60) then .number ((opcode : Int) - 0x50)
  else ((opCodes.lookup opcode).getD .bad)

/-- A number of so many bytes, low byte first: `ReadLE16` and `ReadLE32`. -/
def readLE : List UInt8 → Nat
  | [] => 0
  | b :: rest => b.toNat + 256 * readLE rest

/-- The operand of a push of `nSize` bytes, and the script behind it. -/
def takeOperand (opcode nSize : Nat) (pc : CScript) : Option (Nat × Valtype × CScript) :=
  if pc.length < nSize then none else some (opcode, pc.take nSize, pc.drop nSize)

/-- `GetOp(pc, opcode, vch)`: the opcode, its operand and the rest of the script. -/
def getOp : CScript → Option (Nat × Valtype × CScript)
  | [] => none
  | op :: pc =>
    let opcode := op.toNat
    if opcode < 0x4c then takeOperand opcode opcode pc
    else if opcode ≤ 0x4e then
      -- `OP_PUSHDATA1`, `2` and `4` say in 1, 2 and 4 bytes how much to push
      let width := 2 ^ (opcode - 0x4c)
      if pc.length < width then none
      else takeOperand opcode (readLE (pc.take width)) (pc.drop width)
    else some (opcode, [], pc)

/-- `CScript(vch)`: the script that pushes `vch`. -/
def pushScript (vch : Valtype) : CScript :=
  let byte (shift : Nat) : UInt8 := UInt8.ofNat (vch.length / 256 ^ shift)
  if vch.length < 0x4c then byte 0 :: vch
  else if vch.length ≤ 0xff then 0x4c :: byte 0 :: vch
  else if vch.length ≤ 0xffff then 0x4d :: byte 0 :: byte 1 :: vch
  else 0x4e :: byte 0 :: byte 1 :: byte 2 :: byte 3 :: vch

/-- The copies of `b` at the front of `pc`, passed over. -/
def skipCopies (b : CScript) : Nat → CScript → CScript
  | 0, pc => pc
  | fuel + 1, pc => if b.isPrefixOf pc then skipCopies b fuel (pc.drop b.length) else pc

/-- The loop of `FindAndDelete`, from `pc` on. -/
def findAndDeleteFrom (b : CScript) : Nat → CScript → CScript
  | 0, pc => pc
  | fuel + 1, pc =>
    let pc := skipCopies b pc.length pc
    match getOp pc with
    | none => pc
    | some (_, _, next) => pc.take (pc.length - next.length) ++ findAndDeleteFrom b fuel next

/-- `FindAndDelete(b)`: `b` is taken out wherever an instruction could start. -/
def findAndDelete (script b : CScript) : CScript :=
  if b = [] then script else findAndDeleteFrom b (script.length + 1) script

/-- `IsPushOnly()`. -/
def isPushOnlyFrom : Nat → CScript → Bool
  | 0, pc => pc.isEmpty
  | _ + 1, [] => true
  | fuel + 1, pc =>
    match getOp pc with
    | none => false
    | some (opcode, _, next) => opcode ≤ 0x60 && isPushOnlyFrom fuel next

def isPushOnly (script : CScript) : Bool := isPushOnlyFrom script.length script

/-! ### Values -/

/-- `CastToBool(vch)`: a byte other than zero, and not just the sign of a negative zero. -/
def castToBool (vch : Valtype) : Bool :=
  match vch.dropWhile (· == 0) with
  | [] => false
  | [b] => b != 0x80
  | _ => true

def vchBool (b : Bool) : Valtype := if b then [1] else []

/-- `CScriptNum(vch, false)`: at most four bytes, the top bit of the last one is the sign. -/
def scriptNum (vch : Valtype) : Option Int :=
  if vch.length > 4 then none
  else
    match vch.getLast? with
    | none => some 0
    | some top =>
      if top < 0x80 then some (readLE vch)
      else some (-((readLE vch : Int) - 0x80 * 256 ^ (vch.length - 1)))

/-- The bytes of a number, low byte first, without trailing zeros. -/
def absBytes : Nat → Nat → Valtype
  | 0, _ => []
  | fuel + 1, n => if n = 0 then [] else UInt8.ofNat n :: absBytes fuel (n / 256)

/-- `CScriptNum::serialize(value)`. -/
def serializeNum (value : Int) : Valtype :=
  let result := absBytes 8 value.natAbs
  match result.getLast? with
  | none => []
  | some top =>
    if top ≥ 0x80 then result ++ [if value < 0 then 0x80 else 0]
    else if value < 0 then result.dropLast ++ [top ||| 0x80]
    else result

/-- `IsCompressedOrUncompressedPubKey`, which is what `CheckPubKeyEncoding` asks for. -/
def checkPubKeyEncoding (vchPubKey : Valtype) : Bool :=
  match vchPubKey.head? with
  | some 0x04 => vchPubKey.length == 65
  | some 0x02 => vchPubKey.length == 33
  | some 0x03 => vchPubKey.length == 33
  | _ => false

/-- `IsValidSignatureEncoding`: a strict DER signature and one byte of hash type. -/
def isValidSignatureEncoding (sig : Valtype) : Bool :=
  let at' (i : Nat) : Nat := (sig.getD i 0).toNat
  let lenR := at' 3
  let lenS := at' (5 + lenR)
  9 ≤ sig.length && sig.length ≤ 73 && at' 0 == 0x30 && at' 1 == sig.length - 3 &&
    5 + lenR < sig.length && lenR + lenS + 7 == sig.length &&
    at' 2 == 0x02 && lenR != 0 && at' 4 < 0x80 && !(1 < lenR && at' 4 == 0 && at' 5 < 0x80) &&
    at' (lenR + 4) == 0x02 && lenS != 0 && at' (lenR + 6) < 0x80 &&
    !(1 < lenS && at' (lenR + 6) == 0 && at' (lenR + 7) < 0x80)

/-- `IsDefinedHashtypeSignature`: all, none or single, with or without anyone-can-pay. -/
def isDefinedHashtypeSignature (vchSig : Valtype) : Bool :=
  match vchSig.getLast? with
  | none => false
  | some last => 1 ≤ last &&& 0x7f && last &&& 0x7f ≤ 3

/-- `CheckSignatureEncoding`; an empty signature is a compact way to give none. -/
def checkSignatureEncoding (vchSig : Valtype) : Bool :=
  vchSig.isEmpty || (isValidSignatureEncoding vchSig && isDefinedHashtypeSignature vchSig)

def UnaryOp.apply : UnaryOp → Int → Int
  | add1, bn => bn + 1
  | sub1, bn => bn - 1
  | negate, bn => -bn
  | abs, bn => |bn|
  | not, bn => if bn = 0 then 1 else 0
  | notEqual0, bn => if bn ≠ 0 then 1 else 0

def BinaryOp.apply : BinaryOp → Int → Int → Int
  | add, bn1, bn2 => bn1 + bn2
  | sub, bn1, bn2 => bn1 - bn2
  | boolAnd, bn1, bn2 => if bn1 ≠ 0 ∧ bn2 ≠ 0 then 1 else 0
  | boolOr, bn1, bn2 => if bn1 ≠ 0 ∨ bn2 ≠ 0 then 1 else 0
  | numEqual, bn1, bn2 => if bn1 = bn2 then 1 else 0
  | numNotEqual, bn1, bn2 => if bn1 ≠ bn2 then 1 else 0
  | lessThan, bn1, bn2 => if bn1 < bn2 then 1 else 0
  | greaterThan, bn1, bn2 => if bn1 > bn2 then 1 else 0
  | lessThanOrEqual, bn1, bn2 => if bn1 ≤ bn2 then 1 else 0
  | greaterThanOrEqual, bn1, bn2 => if bn1 ≥ bn2 then 1 else 0
  | min, bn1, bn2 => if bn1 < bn2 then bn1 else bn2
  | max, bn1, bn2 => if bn1 > bn2 then bn1 else bn2

/-! ### Evaluation -/

/-- The local variables of `EvalScript`; `codehash` is the script from `pbegincodehash` on. -/
structure Machine where
  stack : List Valtype
  altstack : List Valtype := []
  vfExec : List Bool := []
  nOpCount : Nat := 0
  codehash : CScript

variable (hashes : Hashes) (checker : SignatureChecker)

/-- `OP_CHECKSIG` on the top two elements; a badly encoded one fails the script. -/
def evalCheckSig (codehash : CScript) (vchSig vchPubKey : Valtype) : Option Bool :=
  let scriptCode := findAndDelete codehash (pushScript vchSig)
  if checkSignatureEncoding vchSig && checkPubKeyEncoding vchPubKey then
    some (checker vchSig vchPubKey scriptCode)
  else none

/-- The loop of `OP_CHECKMULTISIG` over the keys, each tried on the first signature left. -/
def matchSigs (checker : SignatureChecker) (scriptCode : CScript) :
    List Valtype → List Valtype → Option Bool
  | [], sigs => some sigs.isEmpty
  | _ :: _, [] => some true
  | vchPubKey :: keys, vchSig :: sigs =>
    if checkSignatureEncoding vchSig && checkPubKeyEncoding vchPubKey then
      let left := if checker vchSig vchPubKey scriptCode then sigs else vchSig :: sigs
      if left.length > keys.length then some false else matchSigs checker scriptCode keys left
    else none

/-- The top `n` elements of a stack, and what is below them. -/
def popMany (n : Int) (stack : List Valtype) : Option (List Valtype × List Valtype) :=
  if n < 0 ∨ stack.length < n.toNat then none
  else some (stack.take n.toNat, stack.drop n.toNat)

/-- `OP_CHECKMULTISIG`: whether the signatures match, the stack below, and the operation count. -/
def evalCheckMultiSig (m : Machine) : Option (Bool × List Valtype × Nat) := do
  let vchKeysCount ← m.stack.head?
  let nKeysCount ← scriptNum vchKeysCount
  if nKeysCount > maxPubkeysPerMultisig then none else
  let (keys, stack) ← popMany nKeysCount m.stack.tail
  let nOpCount := m.nOpCount + nKeysCount.toNat
  if nOpCount > maxOpsPerScript then none else
  let vchSigsCount ← stack.head?
  let nSigsCount ← scriptNum vchSigsCount
  if nSigsCount > nKeysCount then none else
  let (sigs, stack) ← popMany nSigsCount stack.tail
  let scriptCode := sigs.foldl (fun code vchSig => findAndDelete code (pushScript vchSig)) m.codehash
  let fSuccess ← matchSigs checker scriptCode keys sigs
  -- one element too many is taken off the stack, whatever it is
  match stack with
  | [] => none
  | _ :: stack => some (fSuccess, stack, nOpCount)

/-- The `switch` of `EvalScript`, for an opcode that is executed; `pc` is the script behind it. -/
def execOp (pc : CScript) (m : Machine) : OpCode → Option Machine
  | .number n => some { m with stack := serializeNum n :: m.stack }
  | .nop => some m
  | .verify =>
    match m.stack with
    | vch :: s => if castToBool vch then some { m with stack := s } else none
    | _ => none
  | .opReturn => none
  | .toAltStack =>
    match m.stack with
    | vch :: s => some { m with stack := s, altstack := vch :: m.altstack }
    | _ => none
  | .fromAltStack =>
    match m.altstack with
    | vch :: s => some { m with stack := vch :: m.stack, altstack := s }
    | _ => none
  | .drop2 =>
    match m.stack with
    | _ :: _ :: s => some { m with stack := s }
    | _ => none
  | .dup2 =>
    match m.stack with
    | x2 :: x1 :: s => some { m with stack := x2 :: x1 :: x2 :: x1 :: s }
    | _ => none
  | .dup3 =>
    match m.stack with
    | x3 :: x2 :: x1 :: s => some { m with stack := x3 :: x2 :: x1 :: x3 :: x2 :: x1 :: s }
    | _ => none
  | .over2 =>
    match m.stack with
    | x4 :: x3 :: x2 :: x1 :: s => some { m with stack := x2 :: x1 :: x4 :: x3 :: x2 :: x1 :: s }
    | _ => none
  | .rot2 =>
    match m.stack with
    | x6 :: x5 :: x4 :: x3 :: x2 :: x1 :: s =>
      some { m with stack := x2 :: x1 :: x6 :: x5 :: x4 :: x3 :: s }
    | _ => none
  | .swap2 =>
    match m.stack with
    | x4 :: x3 :: x2 :: x1 :: s => some { m with stack := x2 :: x1 :: x4 :: x3 :: s }
    | _ => none
  | .ifDup =>
    match m.stack with
    | vch :: s => some { m with stack := if castToBool vch then vch :: vch :: s else vch :: s }
    | _ => none
  | .depth => some { m with stack := serializeNum m.stack.length :: m.stack }
  | .drop =>
    match m.stack with
    | _ :: s => some { m with stack := s }
    | _ => none
  | .dup =>
    match m.stack with
    | vch :: s => some { m with stack := vch :: vch :: s }
    | _ => none
  | .nip =>
    match m.stack with
    | x2 :: _ :: s => some { m with stack := x2 :: s }
    | _ => none
  | .over =>
    match m.stack with
    | x2 :: x1 :: s => some { m with stack := x1 :: x2 :: x1 :: s }
    | _ => none
  | .pick =>
    match m.stack with
    | vch :: s => do
      let n ← scriptNum vch
      if n < 0 then none else
      let x ← s[n.toNat]?
      some { m with stack := x :: s }
    | _ => none
  | .roll =>
    match m.stack with
    | vch :: s => do
      let n ← scriptNum vch
      if n < 0 then none else
      let x ← s[n.toNat]?
      some { m with stack := x :: s.eraseIdx n.toNat }
    | _ => none
  | .rot =>
    match m.stack with
    | x3 :: x2 :: x1 :: s => some { m with stack := x1 :: x3 :: x2 :: s }
    | _ => none
  | .swap =>
    match m.stack with
    | x2 :: x1 :: s => some { m with stack := x1 :: x2 :: s }
    | _ => none
  | .tuck =>
    match m.stack with
    | x2 :: x1 :: s => some { m with stack := x2 :: x1 :: x2 :: s }
    | _ => none
  | .size =>
    match m.stack with
    | vch :: s => some { m with stack := serializeNum vch.length :: vch :: s }
    | _ => none
  | .equal =>
    match m.stack with
    | x2 :: x1 :: s => some { m with stack := vchBool (x1 == x2) :: s }
    | _ => none
  | .equalVerify =>
    match m.stack with
    | x2 :: x1 :: s => if x1 = x2 then some { m with stack := s } else none
    | _ => none
  | .unary op =>
    match m.stack with
    | vch :: s => do
      let bn ← scriptNum vch
      some { m with stack := serializeNum (op.apply bn) :: s }
    | _ => none
  | .binary op =>
    match m.stack with
    | x2 :: x1 :: s => do
      let bn1 ← scriptNum x1
      let bn2 ← scriptNum x2
      some { m with stack := serializeNum (op.apply bn1 bn2) :: s }
    | _ => none
  | .numEqualVerify =>
    match m.stack with
    | x2 :: x1 :: s => do
      let bn1 ← scriptNum x1
      let bn2 ← scriptNum x2
      if bn1 = bn2 then some { m with stack := s } else none
    | _ => none
  | .within =>
    match m.stack with
    | x3 :: x2 :: x1 :: s => do
      let bn1 ← scriptNum x1
      let bn2 ← scriptNum x2
      let bn3 ← scriptNum x3
      some { m with stack := vchBool (bn2 ≤ bn1 && bn1 < bn3) :: s }
    | _ => none
  | .ripemd160 =>
    match m.stack with
    | vch :: s => some { m with stack := hashes.ripemd160 vch :: s }
    | _ => none
  | .sha1 =>
    match m.stack with
    | vch :: s => some { m with stack := hashes.sha1 vch :: s }
    | _ => none
  | .sha256 =>
    match m.stack with
    | vch :: s => some { m with stack := hashes.sha256 vch :: s }
    | _ => none
  | .hash160 =>
    match m.stack with
    | vch :: s => some { m with stack := hashes.hash160 vch :: s }
    | _ => none
  | .hash256 =>
    match m.stack with
    | vch :: s => some { m with stack := hashes.hash256 vch :: s }
    | _ => none
  | .codeSeparator => some { m with codehash := pc }
  | .checkSig =>
    match m.stack with
    | vchPubKey :: vchSig :: s => do
      let fSuccess ← evalCheckSig checker m.codehash vchSig vchPubKey
      some { m with stack := vchBool fSuccess :: s }
    | _ => none
  | .checkSigVerify =>
    match m.stack with
    | vchPubKey :: vchSig :: s => do
      let fSuccess ← evalCheckSig checker m.codehash vchSig vchPubKey
      if fSuccess then some { m with stack := s } else none
    | _ => none
  | .checkMultiSig => do
    let (fSuccess, s, nOpCount) ← evalCheckMultiSig checker m
    some { m with stack := vchBool fSuccess :: s, nOpCount := nOpCount }
  | .checkMultiSigVerify => do
    let (fSuccess, s, nOpCount) ← evalCheckMultiSig checker m
    if fSuccess then some { m with stack := s, nOpCount := nOpCount } else none
  | _ => none

/-- The conditionals, which are followed whether or not the code around them is executed. -/
def execConditional (fExec : Bool) (m : Machine) : OpCode → Option Machine
  | .opIf =>
    if fExec then
      match m.stack with
      | vch :: s => some { m with stack := s, vfExec := castToBool vch :: m.vfExec }
      | _ => none
    else some { m with vfExec := false :: m.vfExec }
  | .opNotIf =>
    if fExec then
      match m.stack with
      | vch :: s => some { m with stack := s, vfExec := (!castToBool vch) :: m.vfExec }
      | _ => none
    else some { m with vfExec := false :: m.vfExec }
  | .opElse =>
    match m.vfExec with
    | f :: fs => some { m with vfExec := (!f) :: fs }
    | _ => none
  | .opEndIf =>
    match m.vfExec with
    | _ :: fs => some { m with vfExec := fs }
    | _ => none
  -- `OP_VERIF` and `OP_VERNOTIF` lie between `OP_IF` and `OP_ENDIF`
  | _ => none

/-- One pass of the loop of `EvalScript`, for an instruction that was read. -/
def evalOp (opcode : Nat) (vch : Valtype) (pc : CScript) (m : Machine) : Option Machine :=
  let fExec := m.vfExec.all id
  let op := OpCode.ofByte opcode
  let m := { m with nOpCount := m.nOpCount + if opcode > 0x60 then 1 else 0 }
  let next :=
    if vch.length > maxScriptElementSize ∨ m.nOpCount > maxOpsPerScript ∨ op = .disabled then none
    else if 0x63 ≤ opcode ∧ opcode ≤ 0x68 then execConditional fExec m op
    else if !fExec then some m
    else if op = .pushData then some { m with stack := vch :: m.stack }
    else execOp hashes checker pc m op
  next.filter fun m => m.stack.length + m.altstack.length ≤ 1000

/-- The loop of `EvalScript`; every instruction is at least one byte long. -/
def evalFrom (hashes : Hashes) (checker : SignatureChecker) :
    Nat → CScript → Machine → Option Machine
  | _, [], m => some m
  | 0, _ :: _, _ => none
  | fuel + 1, pc, m => do
    let (opcode, vch, next) ← getOp pc
    let m ← evalOp hashes checker opcode vch next m
    evalFrom hashes checker fuel next m

/-- `EvalScript(stack, script)`: the stack the script leaves. -/
def evalScript (script : CScript) (stack : List Valtype) : Option (List Valtype) := do
  if script.length > maxScriptSize then none else
  let m ← evalFrom hashes checker script.length script { stack := stack, codehash := script }
  if m.vfExec.isEmpty then some m.stack else none

/-- Whether the top of the stack is there and true. -/
def topIsTrue : List Valtype → Bool
  | [] => false
  | vch :: _ => castToBool vch

/-- The second half of `VerifyScript`: the script a P2SH output stands for. -/
def verifyRedeemScript (scriptSig : CScript) : List Valtype → Bool
  | [] => false
  | pubKey2 :: stack =>
    isPushOnly scriptSig && (evalScript hashes checker pubKey2 stack).any topIsTrue

/-- `VerifyScript(scriptSig, scriptPubKey, SCRIPT_VERIFY_P2SH | SCRIPT_VERIFY_STRICTENC, checker)`. -/
def verifyScript (scriptSig scriptPubKey : CScript) : Bool :=
  (evalScript hashes checker scriptSig []).any fun stackCopy =>
    (evalScript hashes checker scriptPubKey stackCopy).any topIsTrue &&
      (!isPayToScriptHash scriptPubKey || verifyRedeemScript hashes checker scriptSig stackCopy)

end Script

end Absolute
