import Stencil.Cast
import Stencil.Proofs.Double.Integer
import Stencil.Proofs.Json.Render

/-!
# Casting the text of an integer

The text of an integer has a sign or none and digits, and nothing else, so it denotes
the integer itself before anything is rounded.  A cast to a number reads it as the
nearest double, and this double becomes an integer again if it fits 64 bits with a
sign.  So the integer comes back if it fits and is a double, and no other integer
does (`exists_apply_inline_int`).
-/

set_option autoImplicit false

namespace Stencil

variable {n : Int}

/-! ## The numeral of an integer -/

/-- A text of digits has no sign. -/
theorem Sign.takeFrom_of_isDigit {s : Text} (h : ∀ c ∈ s, c.isDigit = true) :
    takeFrom s = (none, s) := by
  unfold takeFrom
  split
  · exact absurd (h '+' List.mem_cons_self) (by decide)
  · exact absurd (h '-' List.mem_cons_self) (by decide)
  · rfl

namespace Numeral

/-- The numeral of an integer has a sign or none, and digits. -/
def ofInt (n : Int) : Numeral where
  sign := if n < 0 then some .minus else none
  whole := Nat.toDigits 10 n.natAbs
  fraction := none
  power := none

theorem isDigit_of_mem_whole_ofInt : ∀ c ∈ (ofInt n).whole, c.isDigit = true :=
  fun _ hc => Nat.isDigit_of_mem_toDigits (by decide) (by decide) hc

theorem takeFrom_intText (n : Int) :
    Sign.takeFrom (Number.intText n) = ((ofInt n).sign, (ofInt n).whole) := by
  unfold Number.intText ofInt
  split
  · rfl
  · exact Sign.takeFrom_of_isDigit isDigit_of_mem_whole_ofInt

theorem ofText?_intText (n : Int) : ofText? (Number.intText n) = some (ofInt n) := by
  have hdigits : takeDigits (ofInt n).whole = ((ofInt n).whole, []) := by
    rw [takeDigits, List.takeWhile_eq_self_iff.2 isDigit_of_mem_whole_ofInt,
      List.dropWhile_eq_nil_iff.2 isDigit_of_mem_whole_ofInt]
  unfold ofText?
  rw [takeFrom_intText]
  dsimp only
  rw [hdigits]
  rfl

theorem isNumber_ofInt (n : Int) : (ofInt n).IsNumber :=
  .inl Nat.toDigits_ne_nil

theorem isNegative_ofInt (n : Int) : (ofInt n).isNegative = decide (n < 0) := by
  unfold isNegative ofInt
  dsimp only
  split
  · next hn => rw [decide_eq_true hn]; rfl
  · next hn => rw [decide_eq_false hn]; rfl

theorem magnitude_ofInt (n : Int) : (ofInt n).magnitude = ⟨n.natAbs, 0⟩ := by
  simp [magnitude, ofInt, scale]

end Numeral

/-! ## Its reading -/

theorem toLower_of_isDigit {c : Char} (h : c.isDigit = true) : c.toLower = c := by
  refine dif_neg fun hupper => ?_
  have hdigit : c.val ≤ '9'.val := of_decide_eq_true (Bool.and_eq_true_iff.1 h).2
  have : 'A'.val ≤ '9'.val := UInt32.le_trans hupper.1 hdigit
  exact absurd this (by decide)

/-- Digits spell no word. -/
theorem Reading.special?_of_isDigit {s : Text} (h : ∀ c ∈ s, c.isDigit = true) (neg : Bool) :
    special? neg (s.map Char.toLower) = none := by
  have noWord : ∀ word : String, word.toList.all Char.isDigit = false →
      s.map Char.toLower ≠ word.toList := by
    intro word hword heq
    rw [← heq, List.map_congr_left fun c hc => toLower_of_isDigit (h c hc), List.map_id',
      List.all_eq_true.2 h] at hword
    cases hword
  rw [special?, if_neg, if_neg]
  · exact noWord "nan" (by decide)
  · rintro (hinf | hinfinity)
    · exact noWord "inf" (by decide) hinf
    · exact noWord "infinity" (by decide) hinfinity

/-- **The text of an integer is read as the double nearest to it.** -/
theorem Reading.ofText?_intText (h : n.natAbs < 2 ^ 64) {x : Double} (reads : x.Reads n) :
    ofText? (Number.intText n) = some (.finite x) := by
  obtain ⟨y, hy, reads'⟩ := Double.exists_reads h
  obtain rfl := reads.unique reads'
  unfold ofText?
  rw [Numeral.takeFrom_intText]
  dsimp only
  rw [special?_of_isDigit Numeral.isDigit_of_mem_whole_ofInt, Numeral.ofText?_intText]
  dsimp only
  rw [Option.bind_eq_bind, Option.bind_some, if_pos (Numeral.isNumber_ofInt n),
    Numeral.isNegative_ofInt, Numeral.magnitude_ofInt, hy]

/-! ## The cast -/

namespace Cast

variable {lower : -0x8000000000000000 ≤ n} {upper : n < 0x10000000000000000}

theorem inline_int : (Json.num (.int n lower upper)).inline = Number.intText n := rfl

theorem apply_inline_int {x : Double} (reads : x.Reads n) :
    number.apply (.str (String.ofList (Json.num (.int n lower upper)).inline)) =
      .ok (.num (.ofDouble x)) := by
  have htext : Text.trim (Number.intText n) = Number.intText n :=
    (numberText_toText (.int n lower upper)).trimmed.trim
  simp only [inline_int, apply, readNumber, String.toList_ofList, htext,
    Reading.ofText?_intText (by omega) reads]

/-- **A cast to a number turns the text of an integer into the number of the nearest double**, which
is the integer itself if it fits 64 bits with a sign and is a double. -/
theorem exists_apply_inline_int (lower : -0x8000000000000000 ≤ n)
    (upper : n < 0x10000000000000000) :
    ∃ x : Double,
      number.apply (.str (String.ofList (Json.num (.int n lower upper)).inline)) =
          .ok (.num (.ofDouble x)) ∧
        x.IsNearest n ∧
        (Number.ofDouble x = .int n lower upper ↔
          n < 0x8000000000000000 ∧ Double.Exact n) := by
  obtain ⟨x, -, reads⟩ := Double.exists_reads (n := n) (by omega)
  refine ⟨x, apply_inline_int reads, reads.isNearest, ?_⟩
  rw [Number.ofDouble_eq_int_iff, reads.toInt?_eq_some_iff, and_comm]

end Cast

end Stencil
