import Mathlib.Data.List.TakeDrop
import Mathlib.Data.List.TakeWhile
import SignalFlow.Json.Lexer
import SignalFlow.Json.Printer

/-!
Numerals inside a text. A numeral ends where it would end alone, unless what follows could be a part
of it. Integers are written as numerals that are read as just these integers.
-/

namespace SignalFlow

namespace Json

variable {c : Char} {cs rest ds more : List Char}

-- A numeral ends before this character.
def Delimits (c : Char) : Prop :=
  ¬c.isDigit ∧ c ≠ '.' ∧ c ≠ 'e' ∧ c ≠ 'E'

instance : DecidablePred Delimits :=
  fun _ => inferInstanceAs <| Decidable (_ ∧ _)

-- What would be a part of a numeral in front does not follow.
def Ends (rest : List Char) : Prop :=
  ∀ c ∈ rest.head?, Delimits c

theorem spanDigits_cons : spanDigits (c :: cs) =
    if c.isDigit then (c :: (spanDigits cs).1, (spanDigits cs).2) else ([], c :: cs) := by
  simp only [spanDigits, List.span_eq_takeWhile_dropWhile]
  by_cases hc : c.isDigit <;> simp [hc]

theorem spanDigits_of_ends (h : Ends cs) : spanDigits cs = ([], cs) := by
  cases cs
  case nil      => rfl
  case cons c _ => rw [spanDigits_cons, if_neg (h c rfl).left]

theorem spanDigits_append (h : spanDigits cs = (ds, rest)) (he : rest = [] → Ends more) :
    spanDigits (cs ++ more) = (ds, rest ++ more) := by
  induction cs generalizing ds
  case nil          =>
    cases h
    exact spanDigits_of_ends <| he rfl
  case cons c cs hi =>
    rw [spanDigits_cons] at h
    rw [List.cons_append, spanDigits_cons]
    split at h
    case isFalse hc => cases h; rw [if_neg hc]; rfl
    case isTrue hc  =>
      cases h
      rw [if_pos hc, hi (Prod.eta (spanDigits cs)).symm]

theorem scanWhole_of_ne (hc : c ≠ '0') :
    scanWhole (c :: cs) =
      if (spanDigits (c :: cs)).1 = [] then none else some (spanDigits (c :: cs)) := by
  rw [scanWhole]
  · cases h : spanDigits (c :: cs)
    case mk ds rest => cases ds <;> rfl
  · exact fun _ h => hc (List.cons.inj h).left

theorem scanWhole_append (h : scanWhole cs = some (ds, rest)) (he : rest = [] → Ends more) :
    scanWhole (cs ++ more) = some (ds, rest ++ more) := by
  cases cs
  case nil       => cases h
  case cons c cs =>
    by_cases hz : c = '0'
    case pos =>
      subst hz
      cases h
      rfl
    case neg =>
      rw [scanWhole_of_ne hz] at h
      split at h
      case isTrue  => cases h
      case isFalse hn =>
        have hs := spanDigits_append (Option.some.inj h) he
        rw [Option.some.inj h] at hn
        rw [List.cons_append] at hs ⊢
        rw [scanWhole_of_ne hz, hs, if_neg hn]

theorem scanFraction_append {fraction : Option (List Char)}
    (h : scanFraction cs = some (fraction, rest)) (he : rest = [] → Ends more) :
    scanFraction (cs ++ more) = some (fraction, rest ++ more) := by
  rw [scanFraction.eq_def] at h
  split at h
  case h_1 cs =>
    rw [List.cons_append, scanFraction]
    cases hs : spanDigits cs
    case mk ds tail =>
      rw [hs] at h
      cases ds
      case nil       => cases h
      case cons d ds =>
        cases h
        rw [spanDigits_append hs he]
  case h_2 hp =>
    cases h
    rw [scanFraction]
    intro tail ht
    cases cs
    case nil  => exact (he rfl '.' (by rw [show more = _ from ht]; rfl)).right.left rfl
    case cons => exact hp _ (by rw [(List.cons.inj ht).left])

theorem scanSign_append (hc : cs ≠ []) :
    scanSign (cs ++ more) = ((scanSign cs).1, (scanSign cs).2 ++ more) := by
  cases cs
  case nil       => exact absurd rfl hc
  case cons c cs =>
    by_cases hm : c = '-'
    case pos => subst hm; rfl
    case neg =>
      by_cases hp : c = '+'
      case pos => subst hp; rfl
      case neg => simp [scanSign, hm, hp]

theorem scanExponent_of_mark (hc : c = 'e' || c = 'E') :
    scanExponent (c :: cs) =
      let digits := spanDigits (scanSign cs).2
      if digits.1 = [] then none
      else
        let size : Int := digitsValue digits.1
        some (some (if (scanSign cs).1 then -size else size), digits.2) := by
  rw [scanExponent, if_pos hc]
  dsimp only
  cases h : spanDigits (scanSign cs).2
  case mk ds rest => cases ds <;> rfl

theorem scanExponent_append {exponent : Option Int}
    (h : scanExponent cs = some (exponent, rest)) (he : rest = [] → Ends more) :
    scanExponent (cs ++ more) = some (exponent, rest ++ more) := by
  cases cs
  case nil =>
    cases h
    cases more
    case nil       => rfl
    case cons c cs =>
      have hd := he rfl c rfl
      simp [scanExponent, hd.right.right.left, hd.right.right.right]
  case cons c cs =>
    rw [List.cons_append]
    by_cases hc : c = 'e' || c = 'E'
    case neg =>
      rw [scanExponent, if_neg hc] at h ⊢
      cases h
      rfl
    case pos =>
      rw [scanExponent_of_mark hc] at h ⊢
      dsimp only at h ⊢
      split at h
      case isTrue  => cases h
      case isFalse hn =>
        cases h
        have hs : cs ≠ [] := by rintro rfl; exact hn rfl
        have hd := spanDigits_append (Prod.eta (spanDigits (scanSign cs).2)).symm he
        rw [scanSign_append hs, hd, if_neg hn]

-- What follows the sign of a numeral, and whether there is one.
def splitMinus (cs : List Char) : Bool × List Char :=
  match cs with
  | '-' :: rest => (true, rest)
  | _           => (false, cs)

theorem scanNumeral_eq_some_iff {n : Numeral} :
    scanNumeral cs = some (n, rest) ↔
      ∃ r₁ r₂, (splitMinus cs).1 = n.negative ∧ scanWhole (splitMinus cs).2 = some (n.whole, r₁) ∧
        scanFraction r₁ = some (n.fraction, r₂) ∧ scanExponent r₂ = some (n.exponent, rest) := by
  have hs : scanNumeral cs = (scanWhole (splitMinus cs).2).bind fun w =>
      (scanFraction w.2).bind fun f => (scanExponent f.2).bind fun x =>
        some (⟨(splitMinus cs).1, w.1, f.1, x.1⟩, x.2) := rfl
  rw [hs]
  constructor
  case mp  =>
    intro h
    have ⟨w, hw, h⟩ := Option.bind_eq_some_iff.mp h
    have ⟨f, hf, h⟩ := Option.bind_eq_some_iff.mp h
    have ⟨x, hx, h⟩ := Option.bind_eq_some_iff.mp h
    cases h
    exact ⟨w.2, f.2, rfl, hw, hf, hx⟩
  case mpr =>
    intro ⟨r₁, r₂, hn, hw, hf, he⟩
    simp only [hn, hw, hf, he, Option.bind_some]

theorem scanNumeral_append {n : Numeral} (h : scanNumeral cs = some (n, rest))
    (he : rest = [] → Ends more) : scanNumeral (cs ++ more) = some (n, rest ++ more) := by
  have ⟨r₁, r₂, hn, hw, hf, hx⟩ := scanNumeral_eq_some_iff.mp h
  have hs : splitMinus (cs ++ more) = ((splitMinus cs).1, (splitMinus cs).2 ++ more) := by
    cases cs
    case nil       => cases hw
    case cons c cs =>
      by_cases hc : c = '-'
      case pos => subst hc; rfl
      case neg => simp [splitMinus, hc]
  have he₂ : r₂ = [] → Ends more := by
    rintro rfl
    exact he (Prod.mk.inj <| Option.some.inj hx).right.symm
  have he₁ : r₁ = [] → Ends more := by
    rintro rfl
    exact he₂ (Prod.mk.inj <| Option.some.inj hf).right.symm
  rw [scanNumeral_eq_some_iff, hs]
  exact ⟨_, _, hn, scanWhole_append hw he₁, scanFraction_append hf he₂, scanExponent_append hx he⟩

theorem exists_head_of_scanNumeral {n : Numeral} (h : scanNumeral cs = some (n, rest)) :
    ∃ c tail, cs = c :: tail ∧ (c = '-' ∨ c.isDigit) := by
  have ⟨r₁, r₂, hn, hw, hx⟩ := scanNumeral_eq_some_iff.mp h
  cases cs
  case nil       => cases hw
  case cons c cs =>
    refine ⟨c, cs, rfl, ?_⟩
    by_cases hm : c = '-'
    case pos => exact .inl hm
    case neg =>
      have hs : splitMinus (c :: cs) = (false, c :: cs) := by simp [splitMinus, hm]
      rw [hs] at hw
      by_cases hz : c = '0'
      case pos => exact .inr <| hz ▸ rfl
      case neg =>
        rw [scanWhole_of_ne hz, spanDigits_cons] at hw
        by_cases hc : c.isDigit
        case pos => exact .inr hc
        case neg => rw [if_neg hc] at hw; cases hw

section Integers

variable (n : Nat)

theorem digitsValue_toDigits : digitsValue (Nat.toDigits 10 n) = n :=
  Nat.ofDigitChars_ten_toDigits

-- No integer but zero is written with a zero in front.
theorem head?_toDigits_ne (hn : 0 < n) : ∀ c ∈ (Nat.toDigits 10 n).head?, c ≠ '0' := by
  induction n using Nat.strongRecOn
  case ind n hi =>
    by_cases hl : n < 10
    case pos =>
      have hd : ∀ d < 10, 0 < d → Nat.digitChar d ≠ '0' := by decide
      rw [Nat.toDigits_of_lt_base hl]
      rintro _ ⟨⟩
      exact hd n hl hn
    case neg =>
      have hs : (Nat.toDigits 10 (n / 10)).head?.isSome := List.isSome_head?.mpr Nat.toDigits_ne_nil
      rw [Nat.toDigits_of_base_le (by decide) (by omega), List.head?_append, Option.or_of_isSome hs]
      exact hi (n / 10) (by omega) (by omega)

theorem spanDigits_toDigits : spanDigits (Nat.toDigits 10 n) = (Nat.toDigits 10 n, []) := by
  have hd : ∀ c ∈ Nat.toDigits 10 n, c.isDigit :=
    fun c hc => Nat.isDigit_of_mem_toDigits (by decide) (by decide) hc
  rw [spanDigits, List.span_eq_takeWhile_dropWhile, List.takeWhile_eq_self_iff.mpr hd,
    List.dropWhile_eq_nil_iff.mpr hd]

theorem scanWhole_toDigits : scanWhole (Nat.toDigits 10 n) = some (Nat.toDigits 10 n, []) := by
  cases Nat.eq_zero_or_pos n
  case inl hz => subst hz; rfl
  case inr hn =>
    have hs := spanDigits_toDigits n
    have hz := head?_toDigits_ne n hn
    have hne : Nat.toDigits 10 n ≠ [] := Nat.toDigits_ne_nil
    generalize Nat.toDigits 10 n = ds at hs hz hne
    cases ds
    case nil       => exact absurd rfl hne
    case cons c ds => rw [scanWhole_of_ne (hz c rfl), hs, if_neg hne]

theorem splitMinus_toDigits : splitMinus (Nat.toDigits 10 n) = (false, Nat.toDigits 10 n) := by
  have hd : ∀ c ∈ Nat.toDigits 10 n, c.isDigit :=
    fun c hc => Nat.isDigit_of_mem_toDigits (by decide) (by decide) hc
  generalize Nat.toDigits 10 n = ds at hd
  cases ds
  case nil       => rfl
  case cons c ds =>
    have hc : c ≠ '-' := by
      rintro rfl
      exact absurd (hd '-' (.head _)) (by decide)
    simp [splitMinus, hc]

theorem scanNumeral_toDigits :
    scanNumeral (Nat.toDigits 10 n) = some (⟨false, Nat.toDigits 10 n, none, none⟩, []) := by
  have hs := splitMinus_toDigits n
  exact scanNumeral_eq_some_iff.mpr
    ⟨[], [], by rw [hs], by rw [hs, scanWhole_toDigits], rfl, rfl⟩

theorem scanNumeral_minus_toDigits :
    scanNumeral ('-' :: Nat.toDigits 10 n) = some (⟨true, Nat.toDigits 10 n, none, none⟩, []) :=
  scanNumeral_eq_some_iff.mpr ⟨[], [], rfl, scanWhole_toDigits n, rfl, rfl⟩

end Integers

theorem Numeral.value?_of_integer? {numeral : Numeral} {n : Number}
    (h : numeral.integer? = some n) : numeral.value? = some n := by
  rw [value?, h, Option.some_or]

end Json

namespace Number

-- The text of the number is a numeral, and it stands for the number.
def ReadsBack (n : Number) : Prop :=
  (Json.scanNumeral n.text.toList).map (fun r => (r.1.value?, r.2)) = some (some n, [])

instance : DecidablePred ReadsBack :=
  fun _ => inferInstanceAs <| Decidable (_ = _)

theorem ReadsBack.exists_numeral {n : Number} (h : n.ReadsBack) :
    ∃ numeral, Json.scanNumeral n.text.toList = some (numeral, []) ∧ numeral.value? = some n := by
  have ⟨(numeral, rest), hs, he⟩ := Option.map_eq_some_iff.mp h
  have ⟨hv, hr⟩ := Prod.mk.inj he
  cases hr
  exact ⟨numeral, hs, hv⟩

-- Integers do not need to be asked for.
theorem readsBack_int {i : Int} {h : leastInteger ≤ i ∧ i ≤ greatestUnsigned} :
    (int i h).ReadsBack := by
  cases i
  case ofNat n   =>
    have ht : (int (.ofNat n) h).text.toList = Nat.toDigits 10 n := Nat.toList_repr
    have hi : Json.Numeral.integer? ⟨false, Nat.toDigits 10 n, none, none⟩ = ofInt? n := by
      simp [Json.Numeral.integer?, Json.digitsValue_toDigits]
    rw [ReadsBack, ht, Json.scanNumeral_toDigits, Option.map_some]
    rw [Json.Numeral.value?_of_integer? <| hi.trans <| dif_pos h]
    rfl
  case negSucc n =>
    have ht : (int (.negSucc n) h).text.toList = '-' :: Nat.toDigits 10 (n + 1) := by
      change ("-" ++ Nat.repr (n + 1)).toList = _
      rw [String.toList_append, Nat.toList_repr]
      rfl
    have hi : Json.Numeral.integer? ⟨true, Nat.toDigits 10 (n + 1), none, none⟩ =
        ofInt? (.negSucc n) := by
      simp [Json.Numeral.integer?, Json.digitsValue_toDigits, Int.negSucc_eq]
    rw [ReadsBack, ht, Json.scanNumeral_minus_toDigits, Option.map_some]
    rw [Json.Numeral.value?_of_integer? <| hi.trans <| dif_pos h]

-- Floats do: the digits of this one are read as another one.
example : ∃ n, Number.ofFloat? 2251799813685247.8 = some n ∧ ¬n.ReadsBack :=
  ⟨_, rfl, by decide +kernel⟩

end Number

end SignalFlow
