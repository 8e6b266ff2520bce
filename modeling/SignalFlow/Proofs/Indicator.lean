import SignalFlow.Indicator
import SignalFlow.Plan.Kind
import SignalFlow.Proofs.StateStore.Namespaces

/-!
Series and their names. A name is taken apart from its end: periods are digits, the names of kinds
are letters, and so it does no harm that a symbol may hold colons of its own. As no two series share
a name, a feed answers for each of them as if it kept them apart itself.
-/

namespace SignalFlow

-- What a series is, whatever it is called.
structure Series where
  symbol : String
  kind   : IndicatorKind
  period : Nat
deriving DecidableEq

namespace Series

def key (s : Series) : IndicatorKey :=
  .of s.symbol s.kind.name s.period

-- What stands behind the symbol in the name of a series, and behind a colon.
def tail (s : Series) : List Char :=
  s.kind.name.toList ++ ':' :: Nat.toDigits 10 s.period

theorem toList_text_key (s : Series) : s.key.text.toList = s.symbol.toList ++ ':' :: s.tail := by
  change (s.symbol ++ ":" ++ s.kind.name ++ ":" ++ Nat.repr s.period).toList = _
  simp only [String.toList_append, Nat.toList_repr, List.append_assoc, tail]
  rfl

theorem count_colon_name (k : IndicatorKind) : k.name.toList.count ':' = 0 := by
  cases k <;> decide

theorem count_colon_toDigits (n : Nat) : (Nat.toDigits 10 n).count ':' = 0 := by
  refine List.count_eq_zero.mpr fun h => ?_
  have hd := Nat.isDigit_of_mem_toDigits (by decide) (by decide) h
  exact absurd hd (by decide)

theorem count_colon_tail (s : Series) : s.tail.count ':' = 1 := by
  rw [tail, List.count_append, List.count_cons_self, count_colon_name, count_colon_toDigits]

theorem name_injective : Function.Injective IndicatorKind.name := by
  intro j k h
  cases j <;> cases k <;> first | rfl | exact absurd h (by decide)

theorem key_injective : Function.Injective key := by
  intro s t h
  have ht : s.symbol.toList ++ ':' :: s.tail = t.symbol.toList ++ ':' :: t.tail := by
    rw [←toList_text_key, ←toList_text_key, h]
  -- Both tails have one colon, so that the symbols have as many as one another.
  have hc : s.symbol.toList.count ':' = t.symbol.toList.count ':' := by
    have := congrArg (List.count ':') ht
    simp only [List.count_append, List.count_cons_self, count_colon_tail] at this
    omega
  have ⟨symbol, ht⟩ := StateKey.append_cons_inj hc ht
  have hk := (count_colon_name s.kind).trans (count_colon_name t.kind).symm
  have ⟨kind, period⟩ := StateKey.append_cons_inj hk ht
  cases s
  cases t
  rw [mk.injEq]
  refine ⟨String.toList_inj.mp symbol, name_injective <| String.toList_inj.mp kind, ?_⟩
  have digits : Function.LeftInverse (Nat.ofDigitChars 10 · 0) (Nat.toDigits 10) :=
    fun _ => Nat.ofDigitChars_ten_toDigits
  exact digits.injective period

end Series

-- What may be asked of a feed.
inductive FeedCall where
  | add (series : Series) (extra : Json)
  | set (series : Series) (x : Float)
  | clear (series : Series)
  | get (series : Series)

def FeedCall.series : FeedCall → Series
  | .add s _ => s
  | .set s _ => s
  | .clear s => s
  | .get s   => s

-- The latest value of each series.
abbrev Quotes := Series → Option Float

namespace Quotes

def after (q : Quotes) : FeedCall → Quotes
  | .add ..  => q
  | .set s x => Function.update q s (some x)
  | .clear s => Function.update q s none
  | .get _   => q

variable {q r : Quotes} {c : FeedCall} {s : Series}

theorem after_of_ne (h : c.series ≠ s) : q.after c s = q s := by
  cases c
  case add | get   => rfl
  case set | clear => exact Function.update_of_ne h.symm ..

theorem after_congr (h : q s = r s) : q.after c s = r.after c s := by
  cases c
  case add | get   => exact h
  case set | clear => simp only [after, Function.update_apply, h]

-- What is known of a series depends on the calls about this series only.
theorem foldl_after_filter {calls : List FeedCall} (h : q s = r s) :
    calls.foldl after q s = (calls.filter (·.series = s)).foldl after r s := by
  induction calls generalizing q r
  case nil             => exact h
  case cons c calls hi =>
    rw [List.foldl_cons, List.filter_cons]
    split
    case isTrue     => exact hi <| after_congr h
    case isFalse hc =>
      have hc : c.series ≠ s := by simpa using hc
      exact hi <| (after_of_ne hc).trans h

end Quotes

namespace IndicatorFeed

def after (f : IndicatorFeed) : FeedCall → IndicatorFeed
  | .add s extra => f.register s.key extra
  | .set s x     => f.set s.key x
  | .clear s     => f.clear s.key
  | .get _       => f

-- The values in the feed, by series.
def quotes (f : IndicatorFeed) : Quotes :=
  fun s => f.get? s.key

variable {f : IndicatorFeed} {c : FeedCall} {s : Series}

theorem quotes_after (f : IndicatorFeed) (c : FeedCall) : (f.after c).quotes = f.quotes.after c := by
  have text {s t : Series} : t.key.text = s.key.text ↔ t = s := by
    rw [←Series.key_injective.eq_iff, IndicatorKey.mk.injEq]
  funext t
  cases c
  case add | get => rfl
  case set s x   =>
    simp only [quotes, after, set, get?, Dict.get?_insert, Quotes.after, Function.update_apply, text]
  case clear s   =>
    simp only [quotes, after, clear, get?, Dict.get?_erase, Quotes.after, Function.update_apply, text]

theorem quotes_foldl_after (f : IndicatorFeed) (calls : List FeedCall) :
    (calls.foldl after f).quotes = calls.foldl Quotes.after f.quotes := by
  induction calls generalizing f
  case nil             => rfl
  case cons c calls hi => rw [List.foldl_cons, hi, quotes_after, List.foldl_cons]

theorem isRegistered_after :
    (f.after c).isRegistered s.key ↔ f.isRegistered s.key ∨ ∃ extra, .add s extra = c := by
  cases c
  case set | clear | get => simp [after, isRegistered, set, clear]
  case add t extra       =>
    have hk : t.key = s.key ↔ s = t := Series.key_injective.eq_iff.trans eq_comm
    simp [after, isRegistered, register, hk]

theorem isRegistered_foldl_after {calls : List FeedCall} :
    (calls.foldl after f).isRegistered s.key ↔
      f.isRegistered s.key ∨ ∃ extra, .add s extra ∈ calls := by
  induction calls generalizing f
  case nil             => simp
  case cons c calls hi =>
    simp only [List.foldl_cons, hi, isRegistered_after, List.mem_cons, exists_or, or_assoc]

-- What a feed does for series that it knows by name only. It answers what is known of the series,
-- whatever calls there were about others.
structure KeepsApart (f : IndicatorFeed) : Prop where
  named      : ∀ s t : Series, s.key = t.key → s = t
  answered   : ∀ (calls : List FeedCall) s,
    (calls.foldl after f).get? s.key = calls.foldl Quotes.after f.quotes s
  alone      : ∀ (calls : List FeedCall) s, (calls.foldl after f).get? s.key =
    ((calls.filter (·.series = s)).foldl after f).get? s.key
  registered : ∀ (calls : List FeedCall) s, (calls.foldl after f).isRegistered s.key ↔
    f.isRegistered s.key ∨ ∃ extra, .add s extra ∈ calls

theorem keepsApart (f : IndicatorFeed) : f.KeepsApart where
  named _ _          := (Series.key_injective ·)
  answered calls s   := congrFun (f.quotes_foldl_after calls) s
  alone calls s      := by
    have all := congrFun (f.quotes_foldl_after calls) s
    have own := congrFun (f.quotes_foldl_after <| calls.filter (·.series = s)) s
    exact all.trans <| (Quotes.foldl_after_filter rfl).trans own.symm
  registered calls s := isRegistered_foldl_after

end IndicatorFeed

end SignalFlow
