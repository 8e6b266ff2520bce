import SignalFlow.Proofs.Temporal.Blob

/-!
No machine is written as the beginning of another one. What a reader makes of some bytes it makes of
them whatever follows, so a machine that was cut short is not taken for anything.
-/

namespace SignalFlow

namespace Blob

variable {α β : Type}

-- What is read does not depend on what comes behind it.
def Stable (read : Blob → Option (α × Blob)) : Prop :=
  ∀ b a rest more, read b = some (a, rest) → read (b ++ more) = some (a, rest ++ more)

namespace Stable

variable {read : Blob → Option (α × Blob)}

theorem pure (a : α) : Stable fun b => some (a, b) := by
  intro b a' rest more h
  cases h
  rfl

theorem none : Stable fun _ => (.none : Option (α × Blob)) := by
  intro b a rest more h
  cases h

theorem map (h : Stable read) (f : α → β) :
    Stable fun b => (read b).map fun (a, rest) => (f a, rest) := by
  intro b a rest more hr
  have ⟨⟨a', rest'⟩, hr, he⟩ := Option.map_eq_some_iff.mp hr
  cases he
  dsimp only
  rw [h b a' rest more hr, Option.map_some]

theorem bind {next : α × Blob → Option (β × Blob)} (h : Stable read)
    (hn : ∀ a, Stable fun b => next (a, b)) : Stable fun b => (read b).bind next := by
  intro b a rest more hr
  have ⟨⟨a', rest'⟩, hr, he⟩ := Option.bind_eq_some_iff.mp hr
  dsimp only
  rw [h b a' rest' more hr, Option.bind_some]
  exact hn a' rest' a rest more he

end Stable

theorem stable_readNat (count : Nat) : Stable (readNat count) := by
  intro b n rest more h
  rw [readNat] at h
  split at h
  case isTrue     => cases h
  case isFalse hl =>
    have hl : count ≤ b.length := Nat.not_lt.mp hl
    cases h
    rw [readNat, if_neg (by rw [List.length_append]; omega), List.take_append_of_le_length hl,
      List.drop_append_of_le_length hl]

-- What a count is made of is settled by its first byte.
theorem readCount_cons_cases (widest : Nat) (a : UInt8) :
    (∀ b, readCount widest (a :: b) = some (a.toNat, b)) ∨
      (∃ count ≤ 8, ∀ b, readCount widest (a :: b) = readNat count b) ∨
      ∀ b, readCount widest (a :: b) = none := by
  simp only [readCount]
  split
  case isTrue  => exact .inl fun _ => rfl
  case isFalse =>
    split
    case isTrue  => exact .inr <| .inl ⟨2, by decide, fun _ => rfl⟩
    case isFalse =>
      split
      case isTrue  => exact .inr <| .inl ⟨4, by decide, fun _ => rfl⟩
      case isFalse =>
        split
        case isTrue  => exact .inr <| .inl ⟨8, by decide, fun _ => rfl⟩
        case isFalse => exact .inr <| .inr fun _ => rfl

theorem stable_readCount (widest : Nat) : Stable (readCount widest) := by
  intro b n rest more h
  cases b
  case nil      => cases h
  case cons a b =>
    obtain ha | ⟨count, _, ha⟩ | ha := readCount_cons_cases widest a
    all_goals rw [ha] at h
    case inl     => rw [List.cons_append, ha]; exact Stable.pure a.toNat b n rest more h
    case inr.inl => rw [List.cons_append, ha]; exact stable_readNat count b n rest more h
    case inr.inr => cases h

theorem stable_readBool : Stable readBool := by
  intro b a rest more h
  unfold readBool at h
  split at h
  case h_1 | h_2 => cases h; rfl
  case h_3       => cases h

theorem stable_readStamp : Stable readStamp :=
  (stable_readNat 8).map fun n => Stamp.mk (UInt64.ofNat n)

theorem stable_readOption : Stable readOption := by
  intro b s rest more h
  rw [readOption] at h ⊢
  split at h
  case h_1 rest' hb =>
    rw [stable_readBool b false rest' more hb]
    exact Stable.pure none rest' s rest more h
  case h_2 rest' hb =>
    rw [stable_readBool b true rest' more hb]
    exact stable_readStamp.map some rest' s rest more h
  case h_3 => cases h

theorem stable_readStamps (count : Nat) : Stable (readStamps count) := by
  induction count
  case zero          => exact .pure []
  case succ count hi => exact stable_readStamp.bind fun s => hi.bind fun l => .pure (s :: l)

theorem stable_readHold : Stable readHold :=
  stable_readBool.bind fun active => stable_readOption.bind fun startTime =>
    stable_readStamp.bind fun elapsed => .pure <| Hold.State.mk active startTime elapsed

theorem stable_readSequence : Stable readSequence :=
  (stable_readCount 8).bind fun count => (stable_readStamps count).bind fun events =>
    stable_readOption.bind fun lastTrigger => .pure <| Sequence.State.mk events lastTrigger

theorem stable_readMachine : Stable readMachine := by
  apply (stable_readCount 4).bind
  intro kind
  dsimp only
  split
  case h_1 => exact stable_readHold.map Machine.duration
  case h_2 => exact stable_readSequence.map Machine.sequence
  case h_3 => exact .none

theorem toNat_lt (b : Blob) : toNat b < 256 ^ b.length := by
  induction b
  case nil       => exact Nat.one_pos
  case cons a b hi =>
    have := a.toNat_lt
    rw [toNat, List.length_cons, Nat.pow_succ]
    omega

variable {b rest : Blob} {n count : Nat}

theorem readNat_lt (h : readNat count b = some (n, rest)) : n < 256 ^ count := by
  rw [readNat] at h
  split at h
  case isTrue     => cases h
  case isFalse hl =>
    cases h
    have := toNat_lt (b.take count)
    rwa [List.length_take, Nat.min_eq_left (Nat.not_lt.mp hl)] at this

-- No form of a count has more than eight bytes behind its mark.
theorem readCount_lt {widest : Nat} (h : readCount widest b = some (n, rest)) : n < 2 ^ 64 := by
  cases b
  case nil      => cases h
  case cons a b =>
    obtain ha | ⟨count, hc, ha⟩ | ha := readCount_cons_cases widest a
    all_goals rw [ha] at h
    case inl     =>
      have := a.toNat_lt
      cases h
      omega
    case inr.inl => exact Nat.lt_of_lt_of_le (readNat_lt h) (Nat.pow_le_pow_right (by decide) hc)
    case inr.inr => cases h

theorem length_of_readStamps {l : List Stamp} (h : readStamps count b = some (l, rest)) :
    l.length = count := by
  induction count generalizing b l
  case zero          => cases h; rfl
  case succ count hi =>
    have ⟨⟨s, b'⟩, _, h⟩ := Option.bind_eq_some_iff.mp h
    have ⟨⟨l', b''⟩, hl, h⟩ := Option.bind_eq_some_iff.mp h
    cases h
    rw [List.length_cons, hi hl]

theorem length_of_readSequence {s : Sequence.State Stamp} (h : readSequence b = some (s, rest)) :
    s.events.length < 2 ^ 64 := by
  have ⟨⟨count, b₁⟩, hc, h⟩ := Option.bind_eq_some_iff.mp h
  have ⟨⟨events, b₂⟩, he, h⟩ := Option.bind_eq_some_iff.mp h
  have ⟨⟨lastTrigger, b₃⟩, _, h⟩ := Option.bind_eq_some_iff.mp h
  cases h
  exact length_of_readStamps he ▸ readCount_lt hc

theorem countable_of_machine? {m : Machine} (h : b.machine? = some m) : m.Countable := by
  have ⟨⟨m', rest⟩, hr, he⟩ := Option.map_eq_some_iff.mp h
  cases he
  have ⟨⟨kind, b'⟩, _, h⟩ := Option.bind_eq_some_iff.mp hr
  dsimp only at h
  split at h
  case h_1 =>
    have ⟨_, _, he⟩ := Option.map_eq_some_iff.mp h
    cases he
    trivial
  case h_2 =>
    have ⟨_, hs, he⟩ := Option.map_eq_some_iff.mp h
    cases he
    exact length_of_readSequence hs
  case h_3 => cases h

-- A beginning that is read as something is all there is to read.
theorem eq_of_prefix_ofMachine {m m' : Machine} (hm : m.Countable) (hp : b <+: ofMachine m)
    (h : b.machine? = some m') : b = ofMachine m := by
  have ⟨more, hs⟩ := hp
  have ⟨⟨_, rest⟩, hr, _⟩ := Option.map_eq_some_iff.mp h
  have hr := stable_readMachine b _ rest more hr
  have hw : readMachine (ofMachine m) = some (m, []) :=
    List.append_nil (ofMachine m) ▸ readMachine_ofMachine hm
  rw [hs, hw, Option.some.injEq, Prod.mk.injEq] at hr
  have hn : more = [] := (List.append_eq_nil_iff.mp hr.right.symm).right
  rw [←hs, hn, List.append_nil]

-- Reading takes back what was written, bit for bit and whatever follows, and makes nothing of a
-- machine that was cut short. So what was ever read can be written and read again, however it was
-- written at first.
theorem prefix_code :
    (∀ m : Machine, m.Countable →
      (∀ rest : Blob, (ofMachine m ++ rest).machine? = some m) ∧
        ∀ b : Blob, b <+: ofMachine m → b ≠ ofMachine m → b.machine? = none) ∧
    ∀ (b : Blob) (m : Machine), b.machine? = some m → (ofMachine m).machine? = some m := by
  refine ⟨fun m hm => ⟨machine?_ofMachine_append hm, fun b hp hn => ?_⟩, fun b m h => ?_⟩
  case refine_1 =>
    by_contra hs
    have ⟨m', hs⟩ := Option.ne_none_iff_exists'.mp hs
    exact hn <| eq_of_prefix_ofMachine hm hp hs
  case refine_2 => exact machine?_ofMachine <| countable_of_machine? h

-- More events than one byte can count, at times that are no numbers.
def crowd : Machine :=
  .sequence ⟨List.replicate 251 ⟨0x7FF0000000000001⟩, some ⟨0x8000000000000000⟩⟩

theorem prefix_code_crowd :
    crowd.Countable ∧ (ofMachine crowd ++ [9]).machine? = some crowd ∧
      machine? ((ofMachine crowd).take 2000) = none ∧
      machine? [251, 1, 0, 0, 0, 9] = some (.sequence .zero) ∧
      (ofMachine (.sequence .zero)).machine? = some (.sequence .zero) := by
  have hc : crowd.Countable := by
    rw [crowd, Machine.Countable, List.length_replicate]
    decide
  have long : machine? [251, 1, 0, 0, 0, 9] = some (.sequence .zero) := by decide
  have ⟨hreads, hcut⟩ := prefix_code.left crowd hc
  refine ⟨hc, hreads [9], ?_, long, prefix_code.right _ _ long⟩
  refine hcut _ (List.take_prefix ..) fun he => ?_
  have hl : ((ofMachine crowd).take 2000).length ≠ (ofMachine crowd).length := by decide +kernel
  exact hl <| congrArg List.length he

end Blob

end SignalFlow
