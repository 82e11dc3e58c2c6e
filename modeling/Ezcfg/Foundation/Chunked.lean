import Mathlib.Data.List.TakeWhile
import Mathlib.Algebra.Group.Nat.Defs

/-!
# The chunked transfer coding

A chunked body is a sequence of chunks with a last chunk of size zero behind them. A
chunk is a line with its size, as many bytes of data, and a line end. The size is in
hexadecimal digits and may have an extension behind it. A receiver limits the size of a
chunk.
-/

namespace Foundation.Chunked

/-- The hexadecimal digits of ASCII. -/
def isHexDigit (byte : UInt8) : Bool :=
  (0x30 ≤ byte && byte ≤ 0x39) || (0x41 ≤ byte && byte ≤ 0x46) || (0x61 ≤ byte && byte ≤ 0x66)

/-- The number that a hexadecimal digit stands for. -/
def hexValue (byte : UInt8) : Nat :=
  if byte ≤ 0x39 then byte.toNat - 0x30
  else if byte ≤ 0x46 then byte.toNat - 0x37
  else byte.toNat - 0x57

/-- The number that hexadecimal digits stand for. -/
def hexNumber (digits : List UInt8) : Nat :=
  digits.foldl (fun value byte => 16 * value + hexValue byte) 0

/-- The end of a line. -/
def lineEnd : List UInt8 := [0x0d, 0x0a]

/-- An extension begins with a semicolon and has no control character but the tab. -/
def IsExtension (extension : List UInt8) : Prop :=
  extension.head? = some 0x3b ∧ ∀ byte ∈ extension, 0x20 ≤ byte ∨ byte = 0x09

/-- A line with the size of a chunk, without its end. -/
structure SizeLine (line : List UInt8) (size : Nat) where
  digits : List UInt8
  extension : List UInt8
  parts : line = digits ++ extension
  present : digits ≠ []
  hexadecimal : ∀ byte ∈ digits, isHexDigit byte
  extended : extension = [] ∨ IsExtension extension
  value : hexNumber digits = size

/-- A body with chunks of at most `limit` bytes, and its data. -/
inductive Body (limit : Nat) : List UInt8 → List UInt8 → Prop where
  | last {line : List UInt8} (sized : Nonempty (SizeLine line 0)) : Body limit (line ++ lineEnd) []
  | chunk {line data body others : List UInt8} (sized : Nonempty (SizeLine line data.length))
      (present : data ≠ []) (limited : data.length ≤ limit) (rest : Body limit body others) :
      Body limit (line ++ lineEnd ++ data ++ lineEnd ++ body) (data ++ others)

/-- The stream starts with a body. -/
def StartsWith (limit : Nat) (stream data : List UInt8) : Prop :=
  ∃ body rest, stream = body ++ rest ∧ Body limit body data

/-- A body that is not the last chunk starts with a chunk, and a body is behind it. -/
theorem StartsWith.cases {limit : Nat} {stream data : List UInt8}
    (starts : StartsWith limit stream data) :
    (data = [] ∧ ∃ line rest, Nonempty (SizeLine line 0) ∧ stream = line ++ lineEnd ++ rest) ∨
      ∃ line first others rest, Nonempty (SizeLine line first.length) ∧ first ≠ [] ∧
        first.length ≤ limit ∧ data = first ++ others ∧
        stream = line ++ lineEnd ++ first ++ lineEnd ++ rest ∧ StartsWith limit rest others := by
  obtain ⟨body, rest, rfl, derives⟩ := starts
  cases derives with
  | last sized => exact .inl ⟨rfl, _, rest, sized, rfl⟩
  | @chunk line first inner others sized present limited later =>
    refine .inr ⟨line, first, others, inner ++ rest, sized, present, limited, rfl, ?_, ?_⟩
    · rw [List.append_assoc _ inner rest]
    · exact ⟨inner, rest, rfl, later⟩

/-- No byte below the digits is one. -/
theorem isHexDigit_le {byte : UInt8} (digit : isHexDigit byte) : 0x30 ≤ byte := by
  simp only [isHexDigit, Bool.or_eq_true, Bool.and_eq_true, decide_eq_true_eq] at digit
  rcases digit with (low | middle) | high
  · exact low.1
  · exact UInt8.le_trans (by decide) middle.1
  · exact UInt8.le_trans (by decide) high.1

/-- A size line has no control character but the tab. -/
theorem SizeLine.clean {line : List UInt8} {size : Nat} (sized : SizeLine line size) :
    ∀ byte ∈ line, 0x20 ≤ byte ∨ byte = 0x09 := by
  intro byte member
  rw [sized.parts, List.mem_append] at member
  rcases member with digit | extra
  · exact .inl (UInt8.le_trans (by decide) (isHexDigit_le (sized.hexadecimal byte digit)))
  · rcases sized.extended with none | extended
    · rw [none] at extra
      cases extra
    · exact extended.2 byte extra

/-- Behind the digits of a size line comes a semicolon or what ends the line. -/
theorem SizeLine.stopped {line : List UInt8} {size : Nat} (sized : SizeLine line size)
    (stop : UInt8) (behind : List UInt8) :
    ∃ byte rest, sized.extension ++ stop :: behind = byte :: rest ∧ (byte = 0x3b ∨ byte = stop) := by
  rcases sized.extended with none | extended
  · exact ⟨stop, behind, by rw [none, List.nil_append], .inr rfl⟩
  · obtain ⟨tail, parts⟩ := List.head?_eq_some_iff.mp extended.1
    exact ⟨0x3b, tail ++ stop :: behind, by rw [parts, List.cons_append], .inl rfl⟩

end Foundation.Chunked
