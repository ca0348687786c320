import RecordView.Text.Digit

/-! Texts as bytes. -/
namespace RecordView.Command.Utf8

inductive Reason where
  | invalidStart
  | invalidContinuation
  | unexpectedEnd
  deriving DecidableEq, Repr

def Reason.text : Reason → String
  | invalidStart => "invalid start byte"
  | invalidContinuation => "invalid continuation byte"
  | unexpectedEnd => "unexpected end of data"

/-- Where something is. If it is more than one thing, the first one is not shown. -/
def span (noun shown : String) (position length : Nat) : String :=
  if length = 1 then s!"{noun} {shown} in position {position}"
  else s!"{noun}s in position {position}-{position + length - 1}"

def hexByte (b : UInt8) : String := String.ofList ((Text.hexUnit b.toNat).drop 2)

/-- Bytes that spell no character: the first of them, where it is, how many they are, and why. -/
structure Malformed where
  byte : UInt8
  position : Nat
  length : Nat
  reason : Reason
  deriving DecidableEq, Repr

def Malformed.message (m : Malformed) : String :=
  let what := span "byte" ("0x" ++ hexByte m.byte) m.position m.length
  s!"'utf-8' codec can't decode {what}: {m.reason.text}"

/-- The shape of a character by its first byte: how many bytes follow, the bits that the first one
gives, and the range of the second one. -/
structure Lead where
  following : Nat
  bits : Nat
  least : Nat
  most : Nat
  deriving DecidableEq, Repr

def lead? (b : Nat) : Option Lead :=
  if b < 0x80 then some ⟨0, b, 0x80, 0xBF⟩
  else if b < 0xC2 then none
  else if b < 0xE0 then some ⟨1, b - 0xC0, 0x80, 0xBF⟩
  else if b < 0xF0 then
    some ⟨2, b - 0xE0, if b = 0xE0 then 0xA0 else 0x80, if b = 0xED then 0x9F else 0xBF⟩
  else if b < 0xF5 then
    some ⟨3, b - 0xF0, if b = 0xF0 then 0x90 else 0x80, if b = 0xF4 then 0x8F else 0xBF⟩
  else none

/-- Reads following bytes: the code of the character, or the reason and the number of good ones. -/
def follow (code least most : Nat) : Nat → List UInt8 → Except (Reason × Nat) Nat
  | 0, _ => .ok code
  | _ + 1, [] => .error (.unexpectedEnd, 0)
  | n + 1, b :: bs =>
    if least ≤ b.toNat ∧ b.toNat ≤ most then
      (follow (code * 64 + (b.toNat - 0x80)) 0x80 0xBF n bs).mapError fun (r, good) => (r, good + 1)
    else .error (.invalidContinuation, 0)

def decodeFrom (position : Nat) (bytes : List UInt8) : Except Malformed (List Char) :=
  match bytes with
  | [] => .ok []
  | b :: bs =>
    match lead? b.toNat with
    | none => .error ⟨b, position, 1, .invalidStart⟩
    | some l =>
      match follow l.bits l.least l.most l.following bs with
      | .error (r, good) => .error ⟨b, position, good + 1, r⟩
      | .ok code => do
        let cs ← decodeFrom (position + 1 + l.following) (bs.drop l.following)
        return Char.ofNat code :: cs
termination_by bytes.length
decreasing_by simp only [List.length_drop, List.length_cons]; omega

/-- The characters that bytes spell. -/
def decode (bytes : List UInt8) : Except Malformed (List Char) := decodeFrom 0 bytes

/-- Characters that stand for bytes which are no text: the first of these bytes, where it is, and how many
they are. -/
structure Unencodable where
  byte : UInt8
  position : Nat
  length : Nat
  deriving DecidableEq, Repr

def Unencodable.message (u : Unencodable) : String :=
  let what := span "character" ("'\\udc" ++ hexByte u.byte ++ "'") u.position u.length
  s!"'utf-8' codec can't encode {what}: surrogates not allowed"

/-- The bytes of a text. What stands for a byte that is no text is not encoded. -/
def encode (stray : Char → Option UInt8) (s : String) : Except Unencodable (List UInt8) :=
  match s.toList.dropWhile fun c => (stray c).isNone with
  | [] => .ok (s.toList.flatMap String.utf8EncodeChar)
  | c :: cs =>
    .error ⟨(stray c).getD 0, s.length - (cs.length + 1), (cs.takeWhile fun c => (stray c).isSome).length + 1⟩

end RecordView.Command.Utf8
