import Ezcfg.Foundation.ByteArea
import Ezcfg.Foundation.Terminated

/-!
# Cleaning paths

The path is cleaned in place. Behind a slash or a backslash, further ones are skipped and
then pairs of dots, but slashes behind the dots are not. So two of them come together
exactly when pairs of dots stand between them; without that, what is left is clean, and
cleaning it again changes nothing.
-/

namespace Ezcfg.Util

open Foundation

/-- The dot. -/
abbrev dot : UInt8 := 0x2e

/-- A slash or a backslash. -/
def isSlash (byte : UInt8) : Bool := byte = 0x2f || byte = 0x5c

/-- The loop that skips pairs of dots. -/
def skipDots : List UInt8 → List UInt8
  | first :: second :: rest =>
    if first = dot ∧ second = dot then skipDots rest else first :: second :: rest
  | short => short

/-- The two loops behind a slash; a pointer is the bytes from there on. -/
def skipped (s : List UInt8) : List UInt8 := skipDots (s.dropWhile isSlash)

/-- Where the loop goes on behind a byte. -/
def following (byte : UInt8) (s : List UInt8) : List UInt8 := if isSlash byte then skipped s else s

/-- The loop of `ezcfg_util_url_remove_double_dots_and_double_slashes`, with a bound on its
turns: `p` and `s` are places in the buffer. -/
def removeLoop : Nat → List UInt8 → Nat → Nat → Option (List UInt8)
  | 0, _, _, _ => none
  | turns + 1, buf, p, s => do
    let byte ← buf[s]?
    if byte ≠ 0 then
      let buf ← ByteArea.write buf p [byte]
      let last ← buf[s]?
      let behind := following last (buf.drop (s + 1))
      removeLoop turns buf (p + 1) (buf.length - behind.length)
    else ByteArea.write buf p [0]

/-- `ezcfg_util_url_remove_double_dots_and_double_slashes` -/
def removeDoubleDotsAndDoubleSlashes (buf : List UInt8) : Option (List UInt8) :=
  removeLoop (buf.length + 1) buf 0 0

/-! ## What is skipped -/

/-- Pairs of dots are skipped. -/
theorem skipDots_pairs (text : List UInt8) :
    ∃ pairs, text = List.replicate (2 * pairs) dot ++ skipDots text := by
  induction text using skipDots.induct with
  | case1 first second rest dots inductionHypothesis =>
    obtain ⟨rfl, rfl⟩ := dots
    obtain ⟨pairs, parts⟩ := inductionHypothesis
    refine ⟨pairs + 1, ?_⟩
    rw [skipDots, if_pos ⟨rfl, rfl⟩, Nat.mul_succ]
    exact congrArg (fun rest => dot :: dot :: rest) parts
  | case2 first second rest other =>
    refine ⟨0, ?_⟩
    rw [skipDots, if_neg other]
    rfl
  | case3 short other =>
    refine ⟨0, ?_⟩
    rw [skipDots]
    · rfl
    · exact other

/-- No pair of dots is left in front. -/
theorem skipDots_front (text rest : List UInt8) : skipDots text ≠ dot :: dot :: rest := by
  induction text using skipDots.induct with
  | case1 first second others dots inductionHypothesis =>
    rw [skipDots, if_pos dots]
    exact inductionHypothesis
  | case2 first second others other =>
    rw [skipDots, if_neg other]
    intro same
    injection same with firstDot same
    injection same with secondDot
    exact other ⟨firstDot, secondDot⟩
  | case3 short other =>
    rw [skipDots]
    · exact other _ _ _
    · exact other

/-- Nothing is skipped in front of another byte. -/
theorem skipDots_cons {byte : UInt8} (other : byte ≠ dot) (rest : List UInt8) :
    skipDots (byte :: rest) = byte :: rest := by
  cases rest with
  | nil => rfl
  | cons second rest => exact if_neg fun dots => other dots.1

/-- Dots are skipped up to any other byte. -/
theorem skipDots_append (front : List UInt8) {byte : UInt8} (other : byte ≠ dot)
    (rest : List UInt8) : skipDots (front ++ byte :: rest) = skipDots front ++ byte :: rest := by
  induction front using skipDots.induct with
  | case1 first second others dots inductionHypothesis =>
    rw [List.cons_append, List.cons_append, skipDots, if_pos dots, inductionHypothesis, skipDots,
      if_pos dots]
  | case2 first second others noDots =>
    rw [List.cons_append, List.cons_append, skipDots, if_neg noDots, skipDots, if_neg noDots]
    rfl
  | case3 short long =>
    rcases short with _ | ⟨first, _ | ⟨second, others⟩⟩
    · exact skipDots_cons other rest
    · exact if_neg fun dots => other dots.2
    · exact absurd rfl (long _ _ _)

/-- What is left is the end of the text. -/
theorem skipped_suffix (text : List UInt8) : skipped text <:+ text := by
  obtain ⟨pairs, parts⟩ := skipDots_pairs (text.dropWhile isSlash)
  apply List.IsSuffix.trans ⟨_, parts.symm⟩
  exact List.dropWhile_suffix isSlash

/-- The loop goes on at a later place. -/
theorem following_suffix (byte : UInt8) (text : List UInt8) : following byte text <:+ text := by
  rw [following]
  split_ifs
  · exact skipped_suffix text
  · exact List.suffix_rfl

/-- A slash is no dot. -/
theorem ne_dot_of_isSlash {byte : UInt8} (slash : isSlash byte) : byte ≠ dot := by
  rintro rfl
  exact absurd slash (by decide)

/-- Everything in front of a byte that is neither is skipped alone. -/
theorem skipped_append (front : List UInt8) {byte : UInt8} (noSlash : isSlash byte = false)
    (noDot : byte ≠ dot) (rest : List UInt8) :
    skipped (front ++ byte :: rest) = skipped front ++ byte :: rest := by
  have slashes : (front ++ byte :: rest).dropWhile isSlash =
      front.dropWhile isSlash ++ byte :: rest := by
    have kept : (byte :: rest).dropWhile isSlash = byte :: rest :=
      List.dropWhile_cons_of_neg (by rw [noSlash]; decide)
    rw [List.dropWhile_append]
    split_ifs with none
    · rw [List.isEmpty_iff.mp none, kept]
      rfl
    · rfl
  rw [skipped, skipped, slashes, skipDots_append _ noDot]

/-- Pairs of dots with a slash behind them are skipped. -/
theorem skipped_dots {pairs : Nat} (some : 0 < pairs) {slash : UInt8} (isSlash' : isSlash slash)
    (rest : List UInt8) :
    skipped (List.replicate (2 * pairs) dot ++ slash :: rest) = slash :: rest := by
  have dots : ∀ n, skipDots (List.replicate (2 * n) dot) = [] := by
    intro n
    induction n with
    | zero => rfl
    | succ n inductionHypothesis =>
      rw [Nat.mul_succ]
      exact (if_pos ⟨rfl, rfl⟩).trans inductionHypothesis
  obtain ⟨others, rfl⟩ := Nat.exists_eq_succ_of_ne_zero some.ne'
  have front : (List.replicate (2 * (others + 1)) dot ++ slash :: rest).dropWhile isSlash =
      List.replicate (2 * (others + 1)) dot ++ slash :: rest := by
    rw [Nat.mul_succ]
    rfl
  rw [skipped, front, skipDots_append _ (ne_dot_of_isSlash isSlash'), dots]
  rfl

/-! ## The path that is left -/

/-- The path that the loop leaves. -/
def tidy : List UInt8 → List UInt8
  | [] => []
  | byte :: rest => byte :: tidy (following byte rest)
termination_by text => text.length
decreasing_by exact Nat.lt_succ_of_le (following_suffix byte rest).length_le

/-- No two slashes stand together, and none in front of two dots. -/
structure Clean (path : List UInt8) : Prop where
  apart : ∀ first second, isSlash first → isSlash second → ¬ [first, second] <:+: path
  noDots : ∀ slash, isSlash slash → ¬ [slash, dot, dot] <:+: path

/-- Pairs of dots stand between two slashes. -/
def Trap (path : List UInt8) : Prop :=
  ∃ first second pairs, 0 < pairs ∧ isSlash first ∧ isSlash second ∧
    first :: (List.replicate (2 * pairs) dot ++ [second]) <:+: path

/-- Bytes are only left out. -/
theorem tidy_sublist (path : List UInt8) : (tidy path).Sublist path := by
  induction path using tidy.induct with
  | case1 =>
    rw [tidy]
  | case2 byte rest inductionHypothesis =>
    rw [tidy]
    apply List.Sublist.cons_cons
    exact inductionHypothesis.trans (following_suffix byte rest).sublist

/-- What is left begins as the path does. -/
theorem tidy_front {path front : List UInt8} {byte : UInt8} (begins : byte :: front <+: tidy path) :
    ∃ rest, path = byte :: rest ∧ front <+: tidy (following byte rest) := by
  cases path with
  | nil =>
    rw [tidy] at begins
    exact absurd (List.prefix_nil.mp begins) (List.cons_ne_nil _ _)
  | cons other rest =>
    rw [tidy] at begins
    obtain ⟨rfl, later⟩ := List.cons_prefix_cons.mp begins
    exact ⟨rest, rfl, later⟩

/-- A clean path is left as it is. -/
theorem tidy_of_clean {path : List UInt8} (clean : Clean path) : tidy path = path := by
  induction path using tidy.induct with
  | case1 => rw [tidy]
  | case2 byte rest inductionHypothesis =>
    have kept : following byte rest = rest := by
      rw [following]
      split_ifs with slash
      · have noSlash : rest.dropWhile isSlash = rest := by
          cases rest with
          | nil => rfl
          | cons second others =>
            apply List.dropWhile_cons_of_neg
            intro other
            exact clean.apart byte second slash other ⟨[], others, rfl⟩
        rw [skipped, noSlash]
        rcases rest with _ | ⟨first, _ | ⟨second, others⟩⟩
        · rfl
        · rfl
        · apply if_neg
          rintro ⟨rfl, rfl⟩
          exact clean.noDots byte slash ⟨[], others, rfl⟩
      · rfl
    rw [tidy, kept]
    rw [kept] at inductionHypothesis
    congr 1
    apply inductionHypothesis
    constructor
    · intro first second isFirst isSecond inside
      exact clean.apart first second isFirst isSecond (List.infix_cons inside)
    · intro slash isSlash inside
      exact clean.noDots slash isSlash (List.infix_cons inside)

/-- No slash that is left stands in front of two dots. -/
theorem tidy_noDots (path : List UInt8) {slash : UInt8} (isSlash' : isSlash slash) :
    ¬ [slash, dot, dot] <:+: tidy path := by
  induction path using tidy.induct with
  | case1 =>
    rw [tidy]
    intro inside
    exact absurd inside.length_le (by simp)
  | case2 byte rest inductionHypothesis =>
    rw [tidy]
    intro inside
    rcases List.infix_cons_iff.mp inside with front | later
    · obtain ⟨rfl, dots⟩ := List.cons_prefix_cons.mp front
      obtain ⟨others, first, dots⟩ := tidy_front dots
      have plain : following dot others = others := if_neg (by decide)
      rw [plain] at dots
      obtain ⟨others, rfl, -⟩ := tidy_front dots
      rw [following, if_pos isSlash'] at first
      exact skipDots_front _ _ first
    · exact inductionHypothesis later

/-- A trap in a part of the path is one in the path. -/
theorem Trap.mono {part path : List UInt8} (trap : Trap part) (inside : part <:+: path) :
    Trap path := by
  obtain ⟨first, second, pairs, some, isFirst, isSecond, there⟩ := trap
  exact ⟨first, second, pairs, some, isFirst, isSecond, there.trans inside⟩

/-- When a slash is met behind what is skipped, pairs of dots are in front of it. -/
theorem trap_of_skipped {slash second : UInt8} {rest others : List UInt8} (isFirst : isSlash slash)
    (isSecond : isSlash second) (met : skipped rest = second :: others) :
    Trap (slash :: rest) := by
  obtain ⟨pairs, parts⟩ := skipDots_pairs (rest.dropWhile isSlash)
  rw [← skipped, met] at parts
  have some : 0 < pairs := by
    rcases Nat.eq_zero_or_pos pairs with rfl | some
    · have stopped := List.head?_dropWhile_not isSlash rest
      rw [parts] at stopped
      have noSlash : isSlash second = false := stopped
      rw [isSecond] at noSlash
      cases noSlash
    · exact some
  -- The last of the slashes that are skipped, or the one in front of them.
  obtain ⟨front, last, split, isLast⟩ : ∃ front last,
      slash :: rest.takeWhile isSlash = front ++ [last] ∧ isSlash last := by
    have present : slash :: rest.takeWhile isSlash ≠ [] := List.cons_ne_nil _ _
    refine ⟨_, _, (List.dropLast_append_getLast present).symm, ?_⟩
    rcases List.mem_cons.mp (List.getLast_mem present) with same | inside
    · rw [same]
      exact isFirst
    · exact List.mem_takeWhile_imp inside
  refine ⟨last, second, pairs, some, isLast, isSecond, front, others, ?_⟩
  calc front ++ last :: (List.replicate (2 * pairs) dot ++ [second]) ++ others
      = (front ++ [last]) ++ (List.replicate (2 * pairs) dot ++ second :: others) := by simp
    _ = slash :: rest := by
        rw [← split, ← parts, List.cons_append, List.takeWhile_append_dropWhile]

/-- Two slashes that are left together had pairs of dots between them. -/
theorem trap_of_tidy {path : List UInt8} {first second : UInt8} (isFirst : isSlash first)
    (isSecond : isSlash second) (together : [first, second] <:+: tidy path) : Trap path := by
  induction path using tidy.induct with
  | case1 =>
    rw [tidy] at together
    exact absurd together.length_le (by simp)
  | case2 byte rest inductionHypothesis =>
    rw [tidy] at together
    rcases List.infix_cons_iff.mp together with front | later
    · obtain ⟨rfl, next⟩ := List.cons_prefix_cons.mp front
      obtain ⟨others, met, -⟩ := tidy_front next
      rw [following, if_pos isFirst] at met
      exact trap_of_skipped isFirst isSecond met
    · have inside := (following_suffix byte rest).isInfix
      exact (inductionHypothesis later).mono (inside.trans (List.suffix_cons byte rest).isInfix)

/-- Slashes with pairs of dots between them are met at once, or still behind what is skipped. -/
theorem skipped_trap {first second : UInt8} {pairs : Nat} {rest : List UInt8} (some : 0 < pairs)
    (isFirst : isSlash first) (isSecond : isSlash second)
    (inside : first :: (List.replicate (2 * pairs) dot ++ [second]) <:+: rest) :
    (∃ others, skipped rest = second :: others) ∨
      first :: (List.replicate (2 * pairs) dot ++ [second]) <:+: skipped rest := by
  obtain ⟨front, behind, rfl⟩ := inside
  by_cases slashes : ∀ byte ∈ front, isSlash byte = true
  · left
    refine ⟨behind, ?_⟩
    have all : ∀ byte ∈ front ++ [first], isSlash byte = true := by
      intro byte member
      rcases List.mem_append.mp member with earlier | last
      · exact slashes byte earlier
      · rw [List.mem_singleton.mp last]
        exact isFirst
    have parts : front ++ first :: (List.replicate (2 * pairs) dot ++ [second]) ++ behind =
        (front ++ [first]) ++ (List.replicate (2 * pairs) dot ++ second :: behind) := by
      simp
    rw [parts, skipped, List.dropWhile_append_of_pos all]
    exact skipped_dots some isSecond behind
  · right
    have stopped : ¬ (front.dropWhile isSlash).isEmpty := by
      rw [List.isEmpty_iff, List.dropWhile_eq_nil_iff]
      exact slashes
    refine ⟨skipDots (front.dropWhile isSlash), behind, ?_⟩
    rw [skipped, List.append_assoc front, List.cons_append, List.dropWhile_append, if_neg stopped,
      skipDots_append _ (ne_dot_of_isSlash isFirst), List.append_assoc, List.cons_append]

/-- Two slashes with pairs of dots between them come together. -/
theorem tidy_of_trap {path : List UInt8} (trap : Trap path) :
    ∃ first second, isSlash first ∧ isSlash second ∧ [first, second] <:+: tidy path := by
  obtain ⟨first, second, pairs, some, isFirst, isSecond, inside⟩ := trap
  induction path using tidy.induct with
  | case1 => exact absurd inside.length_le (by simp)
  | case2 byte rest inductionHypothesis =>
    rw [tidy]
    rcases List.infix_cons_iff.mp inside with front | later
    · obtain ⟨rfl, others, rfl⟩ := List.cons_prefix_cons.mp front
      refine ⟨first, second, isFirst, isSecond, [], tidy (following second others), ?_⟩
      have met : following first (List.replicate (2 * pairs) dot ++ [second] ++ others) =
          second :: others := by
        rw [following, if_pos isFirst, List.append_assoc, List.singleton_append,
          skipped_dots some isSecond]
      rw [met, tidy]
      rfl
    · by_cases slash : isSlash byte
      · have next : following byte rest = skipped rest := if_pos slash
        rw [next] at inductionHypothesis ⊢
        rcases skipped_trap some isFirst isSecond later with ⟨others, met⟩ | still
        · rw [met, tidy]
          exact ⟨byte, second, slash, isSecond, [], tidy (following second others), rfl⟩
        · obtain ⟨one, other, isOne, isOther, together⟩ := inductionHypothesis still
          exact ⟨one, other, isOne, isOther, List.infix_cons together⟩
      · have next : following byte rest = rest := if_neg slash
        rw [next] at inductionHypothesis ⊢
        obtain ⟨one, other, isOne, isOther, together⟩ := inductionHypothesis later
        exact ⟨one, other, isOne, isOther, List.infix_cons together⟩

/-! ## The loop -/

/-- A part at the end of an area starts as far behind as it is shorter. -/
theorem drop_of_suffix {part area : List UInt8} (isSuffix : part <:+ area) :
    area.drop (area.length - part.length) = part := (List.suffix_iff_eq_drop.mp isSuffix).symm

/-- The terminator ends what is skipped. -/
theorem following_terminated (byte : UInt8) (text after : List UInt8) :
    following byte (text ++ 0 :: after) = following byte text ++ 0 :: after := by
  rw [following, following]
  split_ifs
  · exact skipped_append text (by decide) (by decide) after
  · rfl

/-- One byte is written. -/
theorem write_one {buf : List UInt8} {p : Nat} (inside : p < buf.length) (byte : UInt8) :
    ByteArea.write buf p [byte] = some (buf.set p byte) := by
  have room : p + [byte].length ≤ buf.length := inside
  rw [ByteArea.write, if_pos room, List.set_eq_take_append_cons_drop, if_pos inside,
    List.append_assoc]
  rfl

/-- The loop leaves the rest of the path, cleaned, behind what it has written. What is read
is not written before it is read, because `p` does not overtake `s`. -/
theorem removeLoop_tidies (turns : Nat) {buf rest after : List UInt8} {p s : Nat}
    (behind : p ≤ s) (read : buf.drop s = rest ++ 0 :: after) (nonul : (0 : UInt8) ∉ rest)
    (enough : rest.length < turns) :
    ∃ left, removeLoop turns buf p s = some (buf.take p ++ tidy rest ++ 0 :: left) := by
  induction turns generalizing buf rest p s with
  | zero => cases enough
  | succ turns inductionHypothesis =>
    have inside : s < buf.length := by
      by_contra outside
      rw [List.drop_eq_nil_of_le (Nat.le_of_not_lt outside)] at read
      exact absurd read.symm (by simp)
    have place : p < buf.length := Nat.lt_of_le_of_lt behind inside
    have first : buf[s]? = (rest ++ 0 :: after).head? := by
      rw [← List.head?_drop, read]
    rw [removeLoop, first]
    cases rest with
    | nil =>
      refine ⟨buf.drop (p + 1), (write_one place 0).trans ?_⟩
      rw [List.set_eq_take_append_cons_drop, if_pos place, tidy, List.append_nil]
    | cons byte rest =>
      have other : byte ≠ 0 := by
        rintro rfl
        exact nonul List.mem_cons_self
      have last : (buf.set p byte)[s]? = some byte := by
        rw [List.getElem?_set]
        split_ifs with same
        · rfl
        · exact first
      have later : p < s + 1 := Nat.lt_succ_of_le behind
      have next : (buf.set p byte).drop (s + 1) = rest ++ 0 :: after := by
        rw [List.drop_set_of_lt later, ← List.drop_drop, read]
        rfl
      have suffix := following_suffix byte (rest ++ 0 :: after)
      have length := congrArg List.length next
      rw [List.length_drop, List.length_set] at length
      have shorter := suffix.length_le
      have taken : (buf.set p byte).take (p + 1) = buf.take p ++ [byte] := by
        rw [List.take_add_one, List.take_set_of_le (Nat.le_refl p), List.getElem?_set_self place]
        rfl
      have kept : (0 : UInt8) ∉ following byte rest := by
        intro member
        exact nonul (List.mem_cons_of_mem _ ((following_suffix byte rest).subset member))
      obtain ⟨left, run⟩ := @inductionHypothesis (buf.set p byte) (following byte rest) (p + 1)
        ((buf.set p byte).length - (following byte (rest ++ 0 :: after)).length)
        (by rw [List.length_set]; omega)
        (by
          rw [← following_terminated]
          apply drop_of_suffix
          rw [← next] at suffix ⊢
          exact suffix.trans (List.drop_suffix _ _))
        kept (Nat.lt_of_le_of_lt (following_suffix byte rest).length_le (Nat.lt_of_succ_lt_succ enough))
      refine ⟨left, ?_⟩
      rw [tidy]
      show (if byte ≠ 0 then _ else _) = _
      rw [if_pos other, write_one place]
      show (((buf.set p byte)[s]?).bind _) = _
      rw [last]
      show removeLoop turns (buf.set p byte) (p + 1)
        ((buf.set p byte).length - (following byte ((buf.set p byte).drop (s + 1))).length) = _
      rw [next, run, taken, List.append_assoc (buf.take p)]
      rfl

/-- What the clean-up is to do: it leaves a clean path that is no longer, and leaves that as
it is. -/
def CleansPath (path : CString) : Prop :=
  ∃ after result, removeDoubleDotsAndDoubleSlashes (terminated path.bytes) = some after ∧
    ByteArea.stringAt after 0 = some result ∧ Clean result ∧
    result.length ≤ path.bytes.length ∧
    ∃ again, removeDoubleDotsAndDoubleSlashes (terminated result) = some again ∧
      ByteArea.stringAt again 0 = some result

/-- A path without a zero is cleaned. -/
theorem remove_tidies {path : List UInt8} (nonul : (0 : UInt8) ∉ path) :
    ∃ after, removeDoubleDotsAndDoubleSlashes (terminated path) = some after ∧
      ByteArea.stringAt after 0 = some (tidy path) := by
  have enough : path.length < (terminated path).length + 1 := by
    rw [length_terminated]
    omega
  obtain ⟨left, run⟩ := @removeLoop_tidies ((terminated path).length + 1) (terminated path) path
    [] 0 0 (Nat.le_refl 0) rfl nonul enough
  refine ⟨_, run, ?_⟩
  apply ByteArea.stringAt_front
  · intro member
    exact nonul ((tidy_sublist path).subset member)
  · refine ⟨left, ?_⟩
    rw [List.take_zero, List.nil_append, List.append_assoc, List.singleton_append]

/-- The clean-up does its work exactly when no pairs of dots stand between two slashes. -/
theorem cleansPath_iff (path : CString) : CleansPath path ↔ ¬ Trap path.bytes := by
  obtain ⟨after, run, string⟩ := remove_tidies path.nonul
  constructor
  · rintro ⟨other, result, run', string', clean, -, -⟩ trap
    rw [run] at run'
    obtain rfl := Option.some.inj run'
    rw [string] at string'
    obtain rfl := Option.some.inj string'
    obtain ⟨first, second, isFirst, isSecond, together⟩ := tidy_of_trap trap
    exact clean.apart first second isFirst isSecond together
  · intro noTrap
    have clean : Clean (tidy path.bytes) := by
      constructor
      · intro first second isFirst isSecond together
        exact noTrap (trap_of_tidy isFirst isSecond together)
      · intro slash isSlash
        exact tidy_noDots path.bytes isSlash
    have nonul : (0 : UInt8) ∉ tidy path.bytes := by
      intro member
      exact path.nonul ((tidy_sublist path.bytes).subset member)
    have again := remove_tidies nonul
    rw [tidy_of_clean clean] at again
    exact ⟨after, _, run, string, clean, (tidy_sublist path.bytes).length_le, again⟩

/-- The path "/../x" becomes "//x". -/
theorem not_cleansPath : ¬ ∀ path, CleansPath path := by
  intro cleans
  have trap : Trap [0x2f, dot, dot, 0x2f, 0x78] := by
    refine ⟨0x2f, 0x2f, 1, by decide, by decide, by decide, [], [0x78], rfl⟩
  have nonul : (0 : UInt8) ∉ [0x2f, dot, dot, 0x2f, 0x78] := by decide
  obtain ⟨after, result, run, string, clean, -⟩ :=
    cleans ⟨[0x2f, dot, dot, 0x2f, 0x78], nonul, by decide⟩
  have left : removeDoubleDotsAndDoubleSlashes (terminated [0x2f, dot, dot, 0x2f, 0x78]) =
      some [0x2f, 0x2f, 0x78, 0, 0x78, 0] := by
    decide
  rw [left] at run
  obtain rfl := Option.some.inj run
  have path : ByteArea.stringAt [0x2f, 0x2f, 0x78, 0, 0x78, 0] 0 = some [0x2f, 0x2f, 0x78] := by
    decide
  rw [path] at string
  obtain rfl := Option.some.inj string
  exact clean.apart 0x2f 0x2f (by decide) (by decide) ⟨[], [0x78], rfl⟩

end Ezcfg.Util
