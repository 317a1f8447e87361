import MessageDepot.Hex
import MessageDepot.Json.Basic

/-!
# JSON strings

A string is written with short escapes for the quote, the backslash and five control
characters, with `\u00xx` for the other control characters, and as it is otherwise. On
reading, all escapes are taken, surrogates only in pairs, and the whole has to be UTF-8; the
bytes of the string are put together first, so bad UTF-8 shows at the closing quote. A string
that is passed over is checked for escapes and control characters alone.

Results:
* `length_of_readEscape`: an escape takes a byte or more.
-/
namespace MessageDepot.Json

/-! ## Writing -/

/-- The letter of a short escape. -/
def escapeLetter? : UInt8 → Option UInt8
  | 0x22 => some 0x22
  | 0x5c => some 0x5c
  | 0x08 => some 0x62
  | 0x0c => some 0x66
  | 0x0a => some 0x6e
  | 0x0d => some 0x72
  | 0x09 => some 0x74
  | _ => none

def hexDigitByte (n : Nat) : UInt8 := (Nat.digitChar n).toNat.toUInt8

def writeByte (b : UInt8) : Bytes :=
  match escapeLetter? b with
  | some c => [0x5c, c]
  | none =>
    if b < 0x20 then
      [0x5c, 0x75, 0x30, 0x30, hexDigitByte (b.toNat / 16), hexDigitByte (b.toNat % 16)]
    else [b]

def writeText (b : Bytes) : Bytes := 0x22 :: b.flatMap writeByte ++ [0x22]

def writeString (s : String) : Bytes := writeText (Bytes.ofText s)

/-! ## Escapes -/

/-- The byte that the letter of a short escape stands for. -/
def letterByte? : UInt8 → Option UInt8
  | 0x22 => some 0x22
  | 0x5c => some 0x5c
  | 0x2f => some 0x2f
  | 0x62 => some 0x08
  | 0x66 => some 0x0c
  | 0x6e => some 0x0a
  | 0x72 => some 0x0d
  | 0x74 => some 0x09
  | _ => none

def hexDigit? (b : UInt8) : Option Nat := Hex.digit? (Char.ofNat b.toNat)

/-- The UTF-16 unit of four hex digits. -/
def unit? (a b c d : UInt8) : Option Nat :=
  match hexDigit? a, hexDigit? b, hexDigit? c, hexDigit? d with
  | some a, some b, some c, some d => some (((a * 16 + b) * 16 + c) * 16 + d)
  | _, _, _, _ => none

/-- Reads four hex digits. Fewer than four bytes are too few, whatever they are. -/
def readUnit : Bytes → Except Fault (Nat × Bytes)
  | a :: b :: c :: d :: rest =>
    match unit? a b c d with
    | some n => .ok (n, rest)
    | none => .error .illFormed
  | _ => .error .endOfInput

def isHighSurrogate (n : Nat) : Bool := 0xd800 ≤ n && n < 0xdc00

def isLowSurrogate (n : Nat) : Bool := 0xdc00 ≤ n && n < 0xe000

/-- The code point of a pair of surrogates. -/
def pairPoint (high low : Nat) : Nat := 0x10000 + (high - 0xd800) * 0x400 + (low - 0xdc00)

def pointBytes (n : Nat) : Bytes := Bytes.ofText (String.singleton (Char.ofNat n))

/-- Reads the backslash and letter of a second unit. -/
def readUnitMark : Bytes → Except Fault Bytes
  | [] => .error .endOfInput
  | 0x5c :: [] => .error .endOfInput
  | 0x5c :: 0x75 :: rest => .ok rest
  | _ => .error .illFormed

/-- Reads what follows a backslash and gives the bytes it stands for. -/
def readEscape : Bytes → Except Fault (Bytes × Bytes)
  | [] => .error .endOfInput
  | c :: rest =>
    if c = 0x75 then
      match readUnit rest with
      | .error f => .error f
      | .ok (n, rest) =>
        if isLowSurrogate n then .error .illFormed
        else if isHighSurrogate n then
          match readUnitMark rest with
          | .error f => .error f
          | .ok rest =>
            match readUnit rest with
            | .error f => .error f
            | .ok (m, rest) =>
              if isLowSurrogate m then .ok (pointBytes (pairPoint n m), rest)
              else .error .illFormed
        else .ok (pointBytes n, rest)
    else
      match letterByte? c with
      | some b => .ok ([b], rest)
      | none => .error .illFormed

/-- Passes over what follows a backslash; surrogates need no partner. -/
def skipEscape : Bytes → Except Fault Bytes
  | [] => .error .endOfInput
  | c :: rest =>
    if c = 0x75 then
      match readUnit rest with
      | .error f => .error f
      | .ok (_, rest) => .ok rest
    else if (letterByte? c).isSome then .ok rest
    else .error .illFormed

theorem length_of_readUnit {b rest : Bytes} {n : Nat} (h : readUnit b = .ok (n, rest)) :
    rest.length < b.length := by
  unfold readUnit at h
  split at h
  · split at h <;> simp at h
    simp only [← h.2, List.length_cons]; omega
  · simp at h

theorem length_of_readUnitMark {b rest : Bytes} (h : readUnitMark b = .ok rest) :
    rest.length < b.length := by
  unfold readUnitMark at h
  split at h <;> simp at h
  subst h; simp only [List.length_cons]; omega

theorem length_of_readEscape {b v rest : Bytes} (h : readEscape b = .ok (v, rest)) :
    rest.length < b.length := by
  unfold readEscape at h
  split at h
  · simp at h
  · split at h
    · split at h
      · simp at h
      · rename_i n r hr
        have h1 := length_of_readUnit hr
        split at h
        · simp at h
        · split at h
          · split at h
            · simp at h
            · rename_i r' hr'
              have h2 := length_of_readUnitMark hr'
              split at h
              · simp at h
              · rename_i m r'' hr''
                have h3 := length_of_readUnit hr''
                split at h <;> simp at h
                simp only [← h.2, List.length_cons]; omega
          · simp only [Except.ok.injEq, Prod.mk.injEq] at h
            simp only [← h.2, List.length_cons]; omega
    · split at h <;> simp at h
      simp [h.2]

theorem length_of_skipEscape {b rest : Bytes} (h : skipEscape b = .ok rest) :
    rest.length < b.length := by
  unfold skipEscape at h
  split at h
  · simp at h
  · split at h
    · split at h
      · simp at h
      · rename_i n r hr
        have := length_of_readUnit hr
        simp only [Except.ok.injEq] at h
        subst h; simp only [List.length_cons]; omega
    · split at h <;> simp at h
      subst h; simp

/-! ## Reading -/

/-- Reads the bytes of a string up to its closing quote, escapes taken. -/
def readText (b : Bytes) : Except Fault (Bytes × Bytes) :=
  match b with
  | [] => .error .endOfInput
  | c :: rest =>
    if c = 0x22 then .ok ([], rest)
    else if c = 0x5c then
      match _h : readEscape rest with
      | .error f => .error f
      | .ok (v, rest) =>
        match readText rest with
        | .error f => .error f
        | .ok (w, rest) => .ok (v ++ w, rest)
    else if c < 0x20 then .error .illFormed
    else
      match readText rest with
      | .error f => .error f
      | .ok (w, rest) => .ok (c :: w, rest)
termination_by b.length
decreasing_by
  · have := length_of_readEscape _h; simp only [List.length_cons]; omega
  · simp

/-- Reads a string after its opening quote. -/
def readString (b : Bytes) : Except Fault (String × Bytes) :=
  match readText b with
  | .error f => .error f
  | .ok (v, rest) =>
    match v.text? with
    | some s => .ok (s, rest)
    | none => .error .illFormed

/-- Passes over a string after its opening quote. -/
def skipString (b : Bytes) : Except Fault Bytes :=
  match b with
  | [] => .error .endOfInput
  | c :: rest =>
    if c = 0x22 then .ok rest
    else if c = 0x5c then
      match _h : skipEscape rest with
      | .error f => .error f
      | .ok rest => skipString rest
    else if c < 0x20 then .error .illFormed
    else skipString rest
termination_by b.length
decreasing_by
  · have := length_of_skipEscape _h; simp only [List.length_cons]; omega
  · simp

end MessageDepot.Json
