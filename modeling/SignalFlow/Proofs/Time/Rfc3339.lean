import Mathlib.Data.List.Induction
import Mathlib.Data.List.TakeDrop
import Mathlib.Data.List.TakeWhile
import SignalFlow.Proofs.Time.Calendar
import SignalFlow.Time.Rfc3339

/-!
The date-time notation tells instants apart: what is written of an instant is read as the same
instant, as long as a clock can show it, and only such instants are read from any text.
-/

namespace SignalFlow

-- A clock can show the instant. Only the last second of a minute may have a leap second behind it.
structure Instant.OnClock (t : Instant) : Prop where
  inRange : InRange t.seconds
  nanos   : t.nanos < 1000000000 ∨ t.seconds % 60 = 59 ∧ t.nanos < 2000000000

namespace Rfc3339

variable {c : Char} {ds rest : List Char} {n width : Nat}

section Digits

-- Numbers end before these characters.
def Ends (rest : List Char) : Prop :=
  ∀ c ∈ rest.head?, ¬c.isDigit

theorem toNat_of_isDigit (h : c.isDigit) : 48 ≤ c.toNat ∧ c.toNat ≤ 57 := by
  rw [Char.isDigit, Bool.and_eq_true, decide_eq_true_eq, decide_eq_true_eq] at h
  exact ⟨UInt32.le_iff_toNat_le.mp h.left, UInt32.le_iff_toNat_le.mp h.right⟩

theorem skipBlanks_of_isDigit (h : c.isDigit) : skipBlanks (c :: rest) = c :: rest := by
  have hb : isBlank c = false := by
    have ⟨hl, hu⟩ := toNat_of_isDigit h
    simp [isBlank]
    omega
  simp [skipBlanks, hb]

theorem digitsValue_lt (h : ∀ c ∈ ds, c.isDigit) : digitsValue ds < 10 ^ ds.length := by
  induction ds using List.reverseRecOn
  case nil                      => decide
  case append_singleton ds c hi =>
    have hc := (toNat_of_isDigit <| h c (by simp)).right
    have hv := hi fun c hc => h c <| List.mem_append_left _ hc
    have hd : digitsValue (ds ++ [c]) = 10 * digitsValue ds + (c.toNat - 48) := by
      simp [digitsValue]
    rw [hd, List.length_append, List.length_singleton, Nat.pow_succ]
    omega

theorem toList_padded : (padded width n).toList =
    List.replicate (width - (Nat.toDigits 10 n).length) '0' ++ Nat.toDigits 10 n :=
  String.toList_ofList

theorem isDigit_padded : ∀ c ∈ (padded width n).toList, c.isDigit := by
  intro c hc
  rw [toList_padded] at hc
  cases List.mem_append.mp hc
  case inl h => exact (List.eq_of_mem_replicate h) ▸ rfl
  case inr h => exact Nat.isDigit_of_mem_toDigits (by decide) (by decide) h

theorem digitsValue_padded : digitsValue (padded width n).toList = n := by
  rw [toList_padded]
  change Nat.ofDigitChars 10 _ 0 = n
  rw [Nat.ofDigitChars_append, Nat.ofDigitChars_replicate_zero, Nat.mul_zero,
    Nat.ofDigitChars_ten_toDigits]

theorem length_padded (hw : 0 < width) (hn : n < 10 ^ width) : (padded width n).length = width := by
  have hl := (Nat.length_toDigits_le_iff (by decide) hw).mpr hn
  rw [←String.length_toList, toList_padded, List.length_append, List.length_replicate]
  omega

theorem padded_ne_nil : (padded width n).toList ≠ [] := by
  simp [toList_padded, Nat.toDigits_ne_nil]

theorem takeWhile_isDigit_append (hd : ∀ c ∈ ds, c.isDigit) (he : Ends rest) :
    (ds ++ rest).takeWhile Char.isDigit = ds := by
  rw [List.takeWhile_append_of_pos hd]
  cases rest
  case nil         => rw [List.takeWhile_nil, List.append_nil]
  case cons c rest => rw [List.takeWhile_cons_of_neg (he c rfl), List.append_nil]

theorem ends_cons (h : ¬c.isDigit) : Ends (c :: rest) := by
  rintro _ ⟨⟩
  exact h

theorem Ends.take (he : Ends rest) : Ends (rest.take n) := by
  cases rest
  case nil         => simpa using he
  case cons c rest =>
    cases n
    case zero => rintro _ ⟨⟩
    case succ => exact he

-- As many of the characters as a number may have are digits, and what follows them is none.
theorem scanNumber_append (hd : ∀ c ∈ ds, c.isDigit) (hn : ds ≠ []) (hl : ds.length ≤ width)
    (he : Ends rest) : scanNumber width (ds ++ rest) = some (digitsValue ds, rest) := by
  have ht : ((ds ++ rest).take width).takeWhile Char.isDigit = ds := by
    rw [List.take_append, List.take_of_length_le hl, takeWhile_isDigit_append hd he.take]
  simp only [scanNumber, ht, List.isEmpty_iff, hn, if_false, List.drop_left]

theorem scanNumber_padded {most : Nat} (hw : (padded width n).length ≤ most) (he : Ends rest) :
    scanNumber most ((padded width n).toList ++ rest) = some (n, rest) := by
  rw [scanNumber_append isDigit_padded padded_ne_nil hw he, digitsValue_padded]

end Digits

section Components

variable {cs : List Char}

theorem exists_padded (width n : Nat) :
    ∃ c cs, (padded width n).toList = c :: cs ∧ c.isDigit := by
  have hne : (padded width n).toList ≠ [] := padded_ne_nil
  have ⟨c, cs, h⟩ := List.exists_cons_of_ne_nil hne
  have hc : c ∈ (padded width n).toList := h ▸ List.mem_cons_self
  exact ⟨c, cs, h, isDigit_padded c hc⟩

theorem skipBlanks_padded :
    skipBlanks ((padded width n).toList ++ rest) = (padded width n).toList ++ rest := by
  have ⟨c, cs, hc, hd⟩ := exists_padded width n
  rw [hc]
  exact skipBlanks_of_isDigit hd

theorem scanComponent_padded (hn : n < 100) (he : Ends rest) :
    scanComponent ((padded 2 n).toList ++ rest) = some (n, rest) := by
  rw [scanComponent, skipBlanks_padded, scanNumber_padded (length_padded (by decide) hn).le he]

theorem scanYear_of_isDigit (h : c.isDigit) : scanYear (c :: cs) =
    (scanNumber 4 (c :: cs)).map fun r => ((r.1 : Int), r.2) := by
  rw [scanYear, skipBlanks_of_isDigit h]
  split
  case h_3 => rfl
  all_goals
    rename_i he
    cases he
    exact absurd h (by decide)

theorem scanYear_minus :
    scanYear ('-' :: cs) = (scanNumber cs.length cs).map fun r => (-(r.1 : Int), r.2) :=
  rfl

theorem scanYear_plus :
    scanYear ('+' :: cs) = (scanNumber cs.length cs).map fun r => ((r.1 : Int), r.2) :=
  rfl

theorem scanYear_yearText (year : Int) (he : Ends rest) :
    scanYear ((yearText year).toList ++ rest) = some (year, rest) := by
  have signed (n : Nat) : scanNumber ((padded 4 n).toList ++ rest).length
      ((padded 4 n).toList ++ rest) = some (n, rest) := by
    refine scanNumber_padded ?_ he
    rw [List.length_append, String.length_toList]
    exact Nat.le_add_right ..
  rw [yearText]
  split
  case isTrue h =>
    have ⟨c, cs, hc, hd⟩ := exists_padded 4 year.toNat
    have hl : (padded 4 year.toNat).length = 4 := length_padded (by decide) (by omega)
    have hn := scanNumber_padded hl.le he
    rw [hc, List.cons_append] at hn ⊢
    rw [scanYear_of_isDigit hd, hn, Option.map_some, Int.toNat_of_nonneg h.left]
  case isFalse h =>
    split
    case isTrue hn  =>
      rw [String.toList_append, show "-".toList = ['-'] from rfl, List.append_assoc,
        List.singleton_append, scanYear_minus, signed, Option.map_some,
        Int.toNat_of_nonneg (by omega), Int.neg_neg]
    case isFalse hn =>
      rw [String.toList_append, show "+".toList = ['+'] from rfl, List.append_assoc,
        List.singleton_append, scanYear_plus, signed, Option.map_some,
        Int.toNat_of_nonneg (by omega)]

theorem scanFraction_padded (hw : 0 < width) (hl : width ≤ 9) (hn : n < 10 ^ width)
    (he : Ends rest) : scanFraction (("." ++ padded width n).toList ++ rest) =
      some (n * 10 ^ (9 - width), rest) := by
  have hlen : (padded width n).toList.length = width := by
    rw [String.length_toList, length_padded hw hn]
  have hdigits : ((padded width n).toList ++ rest).takeWhile Char.isDigit =
      (padded width n).toList := takeWhile_isDigit_append isDigit_padded he
  have hkept : (padded width n).toList.take 9 = (padded width n).toList :=
    List.take_of_length_le (hlen.trans_le hl)
  rw [String.toList_append, show ".".toList = ['.'] from rfl, List.append_assoc,
    List.singleton_append, scanFraction, hdigits, hkept, digitsValue_padded, List.drop_left, hlen,
    List.isEmpty_eq_false_iff.mpr padded_ne_nil]
  rfl

theorem scanFraction_fractionText (hn : n < 1000000000) :
    scanFraction ((fractionText n).toList ++ ['Z']) = some (n, ['Z']) := by
  have he : Ends ['Z'] := ends_cons (by decide)
  rw [fractionText]
  split
  case isTrue h => subst h; rfl
  case isFalse  =>
    split
    case isTrue h =>
      rw [scanFraction_padded (by decide) (by decide) (by omega) he]
      congr
      omega
    case isFalse  =>
      split
      case isTrue h =>
        rw [scanFraction_padded (by decide) (by decide) (by omega) he]
        congr
        omega
      case isFalse  =>
        rw [scanFraction_padded (by decide) (by decide) hn he, Nat.sub_self, Nat.pow_zero,
          Nat.mul_one]

end Components

section Writing

theorem ends_fractionText : Ends ((fractionText n).toList ++ ['Z']) := by
  have point {s : String} : Ends (("." ++ s).toList ++ ['Z']) := by
    rw [String.toList_append]
    exact ends_cons (by decide)
  rw [fractionText]
  split
  case isTrue  => exact ends_cons (by decide)
  case isFalse => split <;> [skip; split] <;> exact point

-- A date and a time of day in UTC, with the decimals of the second.
def clockText (date : Date) (hour minute second nanos : Nat) : String :=
  yearText date.year ++ "-" ++ padded 2 date.month ++ "-" ++ padded 2 date.day ++ "T"
    ++ padded 2 hour ++ ":" ++ padded 2 minute ++ ":" ++ padded 2 second ++ fractionText nanos
    ++ "Z"

theorem toList_clockText (date : Date) (hour minute second nanos : Nat) :
    (clockText date hour minute second nanos).toList =
      (yearText date.year).toList ++ '-' :: ((padded 2 date.month).toList ++ '-' ::
        ((padded 2 date.day).toList ++ 'T' :: ((padded 2 hour).toList ++ ':' ::
          ((padded 2 minute).toList ++ ':' :: ((padded 2 second).toList ++
            ((fractionText nanos).toList ++ ['Z'])))))) := by
  have dash : "-".toList = ['-'] := rfl
  have colon : ":".toList = [':'] := rfl
  have letter : "T".toList = ['T'] := rfl
  have zone : "Z".toList = ['Z'] := rfl
  simp only [clockText, String.toList_append, dash, colon, letter, zone, List.append_assoc,
    List.cons_append, List.nil_append]

theorem read?_clockText {date : Date} {hour minute second nanos : Nat} (hmonth : date.month < 100)
    (hday : date.day < 100) (hhour : hour < 100) (hminute : minute < 100) (hsecond : second < 100)
    (hnanos : nanos < 1000000000) :
    read? (clockText date hour minute second nanos) = instant? date hour minute second nanos 0 := by
  have mark {m : Char} {rest : List Char} (hb : isBlank m = false) :
      scanMark m (skipBlanks (m :: rest)) = some rest := by
    rw [skipBlanks, List.dropWhile_cons_of_neg (by simp [hb]), scanMark, if_pos rfl]
  have dash {rest : List Char} : Ends ('-' :: rest) := ends_cons (by decide)
  have colon {rest : List Char} : Ends (':' :: rest) := ends_cons (by decide)
  have letter {rest : List Char} : Ends ('T' :: rest) := ends_cons (by decide)
  have next {α β : Type} {x : Option α} {f : α → Option β} {a : α} {r : Option β}
      (hx : x = some a) (hf : f a = r) : (x >>= f) = r := by
    rw [hx]
    exact hf
  rw [read?, toList_clockText]
  exact
    next (scanYear_yearText _ dash) <| next (mark rfl) <|
    next (scanComponent_padded hmonth dash) <| next (mark rfl) <|
    next (scanComponent_padded hday letter) <| next rfl <|
    next (scanComponent_padded hhour colon) <| next (mark rfl) <|
    next (scanComponent_padded hminute colon) <| next (mark rfl) <|
    next (scanComponent_padded hsecond ends_fractionText) <|
    next (scanFraction_fractionText hnanos) rfl

-- In the last second of a minute the nanoseconds may run on, which is shown as a second 60.
theorem instant?_ofDays {days : Int} {time nanos : Nat} (ht : time < 86400)
    (hr : Instant.InRange (days * secondsPerDay + time))
    (hn : nanos < 1000000000 ∨ time % 60 = 59 ∧ nanos < 2000000000) :
    instant? (Date.ofDays days) (time / 3600) (time / 60 % 60) (time % 60 + nanos / 1000000000)
      (nanos % 1000000000) 0 = some ⟨days * secondsPerDay + time, nanos⟩ := by
  have ⟨hv, hd⟩ := Date.toDays_ofDays days
  have hleap : (if time % 60 + nanos / 1000000000 = 60 then 1 else 0) = nanos / 1000000000 := by
    split <;> omega
  have hs : time / 3600 * 3600 + time / 60 % 60 * 60 +
      (time % 60 + nanos / 1000000000 - nanos / 1000000000) = time := by omega
  rw [instant?, if_pos ⟨hv, by omega, by omega, by omega⟩]
  simp only [hleap, hd, hs, Int.sub_zero]
  rw [if_pos ⟨hr, hr⟩, Nat.mod_add_div']

-- What is written of an instant is read as the same instant.
theorem read?_write {t : Instant} (h : t.OnClock) : read? (write t) = some t := by
  have ⟨⟨_, hm, _, hd⟩, _⟩ := Date.toDays_ofDays (t.seconds / secondsPerDay)
  have hday := hd.trans (Date.daysInMonth_le ..)
  have ⟨time, htime⟩ : ∃ time : Nat, t.seconds % secondsPerDay = time :=
    Int.eq_ofNat_of_zero_le <| Int.emod_nonneg _ (by decide)
  have hlt : time < 86400 := by simp only [secondsPerDay] at htime; omega
  have hs : t.seconds / secondsPerDay * secondsPerDay + time = t.seconds := by
    rw [←htime, Int.ediv_mul_add_emod]
  have hminute : time % 60 = t.seconds % 60 := by simp only [secondsPerDay] at hs; omega
  have hn : t.nanos < 1000000000 ∨ time % 60 = 59 ∧ t.nanos < 2000000000 :=
    h.nanos.imp_right fun hn => ⟨by omega, hn.right⟩
  change read? (clockText ..) = _
  rw [htime, Int.toNat_natCast,
    read?_clockText (by omega) (by omega) (by omega) (by omega) (by omega) (by omega),
    instant?_ofDays hlt (hs.symm ▸ h.inRange) hn, hs]

end Writing

section Reading

theorem lt_of_scanFraction {cs : List Char} (h : scanFraction cs = some (n, rest)) :
    n < 1000000000 := by
  rw [scanFraction.eq_def] at h
  split at h
  case h_2    => cases h; decide
  case h_1 cs =>
    dsimp only at h
    split at h
    case isTrue  => cases h
    case isFalse =>
      cases h
      have hd : ∀ c ∈ (cs.takeWhile Char.isDigit).take 9, c.isDigit :=
        fun c hc => List.mem_takeWhile_imp <| List.mem_of_mem_take hc
      have hv := digitsValue_lt hd
      have hl : ((cs.takeWhile Char.isDigit).take 9).length ≤ 9 := List.length_take_le ..
      calc
        _ < 10 ^ _ * 10 ^ (9 - _) := Nat.mul_lt_mul_of_pos_right hv (Nat.pow_pos (by decide))
        _ = 10 ^ 9                := by rw [←Nat.pow_add, Nat.add_sub_cancel' hl]

-- Offsets are whole minutes.
theorem emod_of_scanOffset {cs : List Char} {offset : Int}
    (h : scanOffset cs = some (offset, rest)) : offset % 60 = 0 := by
  rw [scanOffset.eq_def] at h
  split at h
  case h_1 | h_2 => cases h; rfl
  case h_4       => cases h
  case h_3       =>
    split at h
    case isTrue  => cases h; rfl
    case isFalse =>
      dsimp only at h
      split at h <;> [skip; split at h]
      case isFalse.isFalse => cases h
      all_goals
        have ⟨sign, _, h⟩ := Option.bind_eq_some_iff.mp h
        have ⟨hours, _, h⟩ := Option.bind_eq_some_iff.mp h
        have ⟨minutes, _, h⟩ := Option.bind_eq_some_iff.mp h
        split at h
        case isFalse => cases h
        case isTrue  =>
          cases h
          apply Int.emod_eq_zero_of_dvd
          apply Dvd.dvd.mul_left
          omega

theorem onClock_of_instant? {date : Date} {hour minute second nanos : Nat} {offset : Int}
    {t : Instant} (hn : nanos < 1000000000) (ho : offset % 60 = 0)
    (h : instant? date hour minute second nanos offset = some t) : t.OnClock := by
  rw [instant?] at h
  split at h
  case isFalse   => cases h
  case isTrue hv =>
    have ⟨leap, hl⟩ : ∃ leap, (if second = 60 then 1 else 0) = leap := ⟨_, rfl⟩
    simp only [hl] at h
    split at h
    case isFalse   => cases h
    case isTrue hr =>
      cases h
      refine ⟨hr.right, ?_⟩
      simp only [secondsPerDay]
      split at hl <;> omega

-- Whatever the offset and the lenience of the text, a clock in UTC can show what was read.
theorem onClock_of_read? {text : String} {t : Instant} (h : read? text = some t) : t.OnClock := by
  have ⟨year, _, h⟩ := Option.bind_eq_some_iff.mp h
  have ⟨_, _, h⟩ := Option.bind_eq_some_iff.mp h
  have ⟨month, _, h⟩ := Option.bind_eq_some_iff.mp h
  have ⟨_, _, h⟩ := Option.bind_eq_some_iff.mp h
  have ⟨day, _, h⟩ := Option.bind_eq_some_iff.mp h
  dsimp only at h
  split at h <;> [split at h; skip]
  case isTrue =>
    have ⟨_, _, h⟩ := Option.bind_eq_some_iff.mp h
    have ⟨hour, _, h⟩ := Option.bind_eq_some_iff.mp h
    have ⟨_, _, h⟩ := Option.bind_eq_some_iff.mp h
    have ⟨minute, _, h⟩ := Option.bind_eq_some_iff.mp h
    have ⟨_, _, h⟩ := Option.bind_eq_some_iff.mp h
    have ⟨second, _, h⟩ := Option.bind_eq_some_iff.mp h
    have ⟨nanos, hn, h⟩ := Option.bind_eq_some_iff.mp h
    have ⟨offset, ho, h⟩ := Option.bind_eq_some_iff.mp h
    split at h
    case isFalse => cases h
    case isTrue  => exact onClock_of_instant? (lt_of_scanFraction hn) (emod_of_scanOffset ho) h
  all_goals cases h

end Reading

end Rfc3339

end SignalFlow
