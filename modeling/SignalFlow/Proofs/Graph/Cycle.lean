import Mathlib.Data.List.Chain
import Mathlib.Data.List.Nodup
import SignalFlow.Graph.Cycle
import SignalFlow.Proofs.Graph.Arcs

/-!
The depth-first search closes cycles only, and it closes one in every part of the wiring in which
arcs run in a circle. So it finds nothing exactly if the wiring is acyclic.
-/

open Relation

namespace SignalFlow

namespace Wiring

-- Every position feeds the next one, and the last one feeds the first.
structure IsCycle (w : Wiring) (c : List Nat) : Prop where
  nodup  : c.Nodup
  chain  : c.IsChain w.Arc
  closed : ∃ first ∈ c.head?, ∃ last ∈ c.getLast?, w.Arc last first

variable {w : Wiring} {c unseen done : List Nat} {path : List Step} {i j : Nat}

theorem reflTransGen_of_isChain_cons (h : (i :: c).IsChain w.Arc) (hm : j ∈ i :: c) :
    ReflTransGen w.Arc i j := by
  induction c generalizing i
  case nil => exact List.mem_singleton.mp hm ▸ .refl
  case cons k c hi =>
    have ⟨ha, ht⟩ := List.isChain_cons_cons.mp h
    cases hm
    case head    => exact .refl
    case tail hm => exact .head ha <| hi ht hm

theorem reflTransGen_getLast_of_isChain {last : Nat} (h : c.IsChain w.Arc) (hm : i ∈ c)
    (hl : last ∈ c.getLast?) : ReflTransGen w.Arc i last := by
  have ⟨l, r, hc⟩ := List.append_of_mem hm
  have hs := (hc ▸ h).right_of_append
  apply reflTransGen_of_isChain_cons hs
  rw [hc, List.getLast?_append_of_ne_nil _ (List.cons_ne_nil i r)] at hl
  exact List.mem_of_getLast? hl

namespace IsCycle

theorem reflTransGen (h : w.IsCycle c) (hi : i ∈ c) (hj : j ∈ c) : ReflTransGen w.Arc i j := by
  have ⟨first, hf, last, hl, ha⟩ := h.closed
  have ⟨r, hc⟩ := List.head?_eq_some_iff.mp hf
  apply (reflTransGen_getLast_of_isChain h.chain hi hl).trans
  exact .head ha <| reflTransGen_of_isChain_cons (hc ▸ h.chain) (hc ▸ hj)

theorem transGen (h : w.IsCycle c) : ∃ i, TransGen w.Arc i i := by
  have ⟨first, hf, last, hl, ha⟩ := h.closed
  have hf := List.mem_of_head? hf
  have hl := List.mem_of_getLast? hl
  exact ⟨last, .head' ha <| h.reflTransGen hf hl⟩

end IsCycle

-- A search under way: the path runs along arcs, the latest position in front, and what is pending
-- on it are arcs, too.
structure OnTrack (w : Wiring) (unseen : List Nat) (path : List Step) : Prop where
  nodup : (onPath path).Nodup
  chain : (onPath path).IsChain (fun j i => w.Arc i j)
  arcs  : ∀ s ∈ path, ∀ j ∈ s.pending, w.Arc s.position j
  apart : ∀ i ∈ onPath path, i ∉ unseen
  fresh : unseen.Nodup

namespace OnTrack

theorem start {root : Nat} (h : (root :: unseen).Nodup) :
    w.OnTrack unseen [⟨root, w.successors root⟩] where
  nodup := List.nodup_singleton _
  chain := .singleton _
  arcs  := by simp [mem_successors_iff]
  apart := by simpa [onPath] using (List.nodup_cons.mp h).left
  fresh := (List.nodup_cons.mp h).right

theorem pop {s : Step} (h : w.OnTrack unseen (s :: path)) : w.OnTrack unseen path where
  nodup := (List.nodup_cons.mp h.nodup).right
  chain := h.chain.tail
  arcs  := fun _ hs => h.arcs _ (.tail _ hs)
  apart := fun _ hi => h.apart _ (.tail _ hi)
  fresh := h.fresh

variable {pending : List Nat}

theorem skip (h : w.OnTrack unseen (⟨i, j :: pending⟩ :: path)) :
    w.OnTrack unseen (⟨i, pending⟩ :: path) where
  nodup := h.nodup
  chain := h.chain
  arcs  := by
    intro s hs k hk
    cases hs
    case head    => exact h.arcs _ (.head _) k (.tail _ hk)
    case tail hs => exact h.arcs s (.tail _ hs) k hk
  apart := h.apart
  fresh := h.fresh

theorem arc (h : w.OnTrack unseen (⟨i, j :: pending⟩ :: path)) : w.Arc i j :=
  h.arcs _ (.head _) j (.head _)

theorem push (h : w.OnTrack unseen (⟨i, j :: pending⟩ :: path)) (hj : j ∈ unseen) :
    w.OnTrack (unseen.erase j) (⟨j, w.successors j⟩ :: ⟨i, pending⟩ :: path) where
  nodup := List.nodup_cons.mpr ⟨fun hm => h.apart j hm hj, h.nodup⟩
  chain := .cons_cons h.arc h.chain
  arcs  := by
    intro s hs k hk
    cases hs
    case head    => exact mem_successors_iff.mp hk
    case tail hs => exact h.skip.arcs s hs k hk
  apart := by
    intro k hk
    rw [h.fresh.mem_erase_iff, not_and_or]
    cases hk
    case head    => exact .inl (not_not.mpr rfl)
    case tail hk => exact .inr (h.apart k hk)
  fresh := h.fresh.erase j

end OnTrack

theorem closedCycle_append {start : Nat} {l r : List Nat} (h : start ∉ l) :
    closedCycle start (l ++ start :: r) = (l ++ [start]).reverse := by
  have ht : (l ++ start :: r).takeWhile (· ≠ start) = l := by
    rw [List.takeWhile_append_of_pos (by intro a ha; simpa using ne_of_mem_of_not_mem ha h)]
    simp
  rw [closedCycle, ht, List.reverse_append, List.reverse_singleton, List.singleton_append]

theorem head_mem_closedCycle (start i : Nat) (l : List Nat) : i ∈ closedCycle start (i :: l) := by
  by_cases h : i = start
  case pos => exact h ▸ .head _
  case neg => simp [closedCycle, h]

theorem OnTrack.isCycle {pending : List Nat} (h : w.OnTrack unseen (⟨i, j :: pending⟩ :: path))
    (hj : j ∈ i :: onPath path) : w.IsCycle (closedCycle j (i :: onPath path)) := by
  have ⟨l, r, hp, hl⟩ := List.eq_append_cons_of_mem hj
  have hpre : l ++ [j] <+: i :: onPath path := ⟨r, by simp [hp]⟩
  have hi : i ∈ (l ++ [j]).head? := by
    cases l <;> simp_all
  rw [hp, closedCycle_append hl]
  constructor
  case nodup  => exact List.nodup_reverse.mpr <| h.nodup.sublist hpre.sublist
  case chain  => exact List.isChain_reverse.mpr <| h.chain.prefix hpre
  case closed => exact ⟨j, by simp, i, List.getLast?_reverse ▸ hi, h.arc⟩

theorem isCycle_of_mem_cyclesFrom (h : w.OnTrack unseen path)
    (hc : c ∈ (w.cyclesFrom unseen path).1) : w.IsCycle c := by
  fun_induction cyclesFrom w unseen path
  case case1                     => cases hc
  case case2 hi                  => exact hi h.pop hc
  case case3 hj hi               => exact hi (h.push hj) hc
  case case4 later hj hi         =>
    cases hc
    case head    => exact h.isCycle hj
    case tail hc => exact hi h.skip hc
  case case5 hi                  => exact hi h.skip hc

theorem cyclesFrom_sublist (w : Wiring) (unseen : List Nat) (path : List Step) :
    (w.cyclesFrom unseen path).2.Sublist unseen := by
  fun_induction cyclesFrom w unseen path
  case case1       => exact .refl _
  case case2 hi    => exact hi
  case case3 hi    => exact hi.trans List.erase_sublist
  case case4 hi    => exact hi
  case case5 hi    => exact hi

theorem isCycle_of_mem_cyclesAmong (h : unseen.Nodup) (hc : c ∈ w.cyclesAmong unseen) :
    w.IsCycle c := by
  fun_induction cyclesAmong w unseen
  case case1 => cases hc
  case case2 root unseen found hi =>
    cases List.mem_append.mp hc
    case inl hc => exact isCycle_of_mem_cyclesFrom (.start h) hc
    case inr hc => exact hi (h.tail.sublist <| cyclesFrom_sublist ..) hc

theorem isCycle_of_mem_cycles (hc : c ∈ w.cycles) : w.IsCycle c :=
  isCycle_of_mem_cyclesAmong List.nodup_range hc

-- The arcs between two positions of a part of the wiring.
def ArcIn (w : Wiring) (part : Nat → Prop) (i j : Nat) : Prop :=
  w.Arc i j ∧ part i ∧ part j

-- Of the arcs of a part that leave a position on the path, each is still pending, or leads to what
-- is left for good or to a later position on the path.
def Followed (w : Wiring) (part : Nat → Prop) : (left : List Nat) → (path : List Step) → Prop
  | _, []           => True
  | left, s :: path =>
    (∀ j, w.ArcIn part s.position j → j ∈ s.pending ∨ j ∈ left) ∧
      w.Followed part (s.position :: left) path

variable {part : Nat → Prop}

theorem Followed.mono {left left' : List Nat} (h : w.Followed part left path) (hs : left ⊆ left') :
    w.Followed part left' path := by
  induction path generalizing left left'
  case nil => trivial
  case cons s path hi =>
    have ⟨hf, ht⟩ := h
    exact ⟨fun j ha => (hf j ha).imp_right (hs ·), hi ht <| List.cons_subset_cons _ hs⟩

-- What is left for good is settled as far as the part is concerned. This is only true while no
-- cycle is closed within the part.
structure Searched (w : Wiring) (part : Nat → Prop) (unseen : List Nat) (path : List Step)
    (done : List Nat) : Prop where
  track    : w.OnTrack unseen path
  settled  : Settled (w.ArcIn part) done
  followed : w.Followed part done path
  apart    : ∀ i ∈ done, i ∉ onPath path ∧ i ∉ unseen
  cover    : ∀ i < w.size, i ∈ done ∨ i ∈ onPath path ∨ i ∈ unseen

namespace Searched

theorem init (w : Wiring) (part : Nat → Prop) : w.Searched part (List.range w.size) [] [] where
  track    := ⟨.nil, .nil, by simp, by simp [onPath], List.nodup_range⟩
  settled  := .nil
  followed := trivial
  apart    := by simp
  cover    := fun _ h => .inr <| .inr <| List.mem_range.mpr h

theorem start {root : Nat} (h : w.Searched part (root :: unseen) [] done) :
    w.Searched part unseen [⟨root, w.successors root⟩] done where
  track    := .start h.track.fresh
  settled  := h.settled
  followed := ⟨fun _ ha => .inl <| mem_successors_iff.mpr ha.left, trivial⟩
  apart    := by
    intro i hi
    have ⟨_, hu⟩ := h.apart i hi
    simp_all [onPath]
  cover    := by
    intro i hi
    have := h.cover i hi
    simp_all [onPath]

theorem pop (h : w.Searched part unseen (⟨i, []⟩ :: path) done) :
    w.Searched part unseen path (i :: done) where
  track    := h.track.pop
  settled  := by
    have hm : i ∉ done := fun hm => (h.apart i hm).left <| .head _
    exact .cons hm (fun j ha => (h.followed.left j ha).resolve_left List.not_mem_nil) h.settled
  followed := h.followed.right
  apart    := by
    intro j hj
    cases hj
    case head    => exact ⟨(List.nodup_cons.mp h.track.nodup).left, h.track.apart i <| .head _⟩
    case tail hj => exact (h.apart j hj).imp_left (mt <| .tail _)
  cover    := by
    intro j hj
    have := h.cover j hj
    simp only [onPath, List.map_cons, List.mem_cons] at this ⊢
    tauto

variable {pending : List Nat}

theorem skip (h : w.Searched part unseen (⟨i, j :: pending⟩ :: path) done)
    (hj : w.ArcIn part i j → j ∈ done) : w.Searched part unseen (⟨i, pending⟩ :: path) done where
  track    := h.track.skip
  settled  := h.settled
  followed := by
    refine ⟨fun k ha => ?_, h.followed.right⟩
    cases h.followed.left k ha
    case inr hk => exact .inr hk
    case inl hk =>
      cases hk
      case head    => exact .inr <| hj ha
      case tail hk => exact .inl hk
  apart    := h.apart
  cover    := h.cover

theorem push (h : w.Searched part unseen (⟨i, j :: pending⟩ :: path) done) (hj : j ∈ unseen) :
    w.Searched part (unseen.erase j) (⟨j, w.successors j⟩ :: ⟨i, pending⟩ :: path) done where
  track    := h.track.push hj
  settled  := h.settled
  followed := by
    refine ⟨fun _ ha => .inl <| mem_successors_iff.mpr ha.left, fun k ha => ?_, ?_⟩
    · have hk := h.followed.left k ha
      simp only [List.mem_cons] at hk ⊢
      tauto
    · exact h.followed.right.mono <| List.cons_subset_cons _ <| List.subset_cons_self ..
  apart    := by
    intro k hk
    have ⟨hp, hu⟩ := h.apart k hk
    refine ⟨?_, mt List.mem_of_mem_erase hu⟩
    exact List.not_mem_cons_of_ne_of_not_mem (ne_of_mem_of_not_mem hj hu).symm hp
  cover    := by
    intro k hk
    have hc := h.cover k hk
    by_cases he : k = j
    case pos => exact .inr <| .inl <| he ▸ .head _
    case neg => exact hc.imp_right <| .imp (.tail _) (List.mem_erase_of_ne he).mpr

end Searched

-- Whatever lies between two positions of the part belongs to it.
def Convex (w : Wiring) (part : Nat → Prop) : Prop :=
  ∀ i j k, part i → part k → ReflTransGen w.Arc i j → ReflTransGen w.Arc j k → part j

theorem exists_searched_of_cyclesFrom (hp : w.Convex part) (h : w.Searched part unseen path done)
    (hn : ∀ c ∈ (w.cyclesFrom unseen path).1, ¬∀ i ∈ c, part i) :
    ∃ done', w.Searched part (w.cyclesFrom unseen path).2 [] done' := by
  fun_induction cyclesFrom w unseen path generalizing done
  case case1       => exact ⟨done, h⟩
  case case2 hi    => exact hi h.pop hn
  case case3 hj hi => exact hi (h.push hj) hn
  case case4 i j pending path _ later hj hi =>
    apply hi (h.skip fun ha => ?_) fun c hc => hn c (.tail _ hc)
    -- The arc would close a cycle within the part.
    have hc := h.track.isCycle hj
    have hs := head_mem_closedCycle j i (onPath path)
    refine absurd (fun k hk => ?_) (hn _ <| .head _)
    obtain ⟨_, hpi, hpj⟩ := ha
    exact hp j k i hpj hpi (hc.reflTransGen (.head _) hk) (hc.reflTransGen hk hs)
  case case5 i j pending path hu _ hj hi =>
    apply hi (h.skip fun ha => ?_) hn
    have hc := h.cover j ha.left.lt_size.right
    exact hc.resolve_right <| not_or.mpr ⟨hj, hu⟩

theorem exists_settled_of_cyclesAmong (hp : w.Convex part) (h : w.Searched part unseen [] done)
    (hn : ∀ c ∈ w.cyclesAmong unseen, ¬∀ i ∈ c, part i) :
    ∃ done', Settled (w.ArcIn part) done' ∧ ∀ i < w.size, i ∈ done' := by
  fun_induction cyclesAmong w unseen generalizing done
  case case1 => exact ⟨done, h.settled, fun i hi => by simpa [onPath] using h.cover i hi⟩
  case case2 root unseen found hi =>
    have ⟨_, h⟩ := exists_searched_of_cyclesFrom hp h.start fun c hc => hn c <|
      List.mem_append_left _ hc
    exact hi h fun c hc => hn c <| List.mem_append_right _ hc

theorem transGen_arcIn (h : TransGen w.Arc i j) (hr : ReflTransGen w.Arc j i) :
    TransGen (w.ArcIn fun k => ReflTransGen w.Arc i k ∧ ReflTransGen w.Arc k i) i j := by
  induction h
  case single ha      => exact .single ⟨ha, ⟨.refl, .head ha hr⟩, .single ha, hr⟩
  case tail ht ha hi  =>
    have hr' := ReflTransGen.head ha hr
    exact .tail (hi hr') ⟨ha, ⟨ht.to_reflTransGen, hr'⟩, (ht.tail ha).to_reflTransGen, hr⟩

-- One of the cycles lies within any part of the wiring in which arcs run in a circle.
theorem exists_mem_cycles_of_transGen (h : TransGen w.Arc i i) :
    ∃ c ∈ w.cycles, ∀ j ∈ c, ReflTransGen w.Arc i j ∧ ReflTransGen w.Arc j i := by
  by_contra hn
  push Not at hn
  let part (j : Nat) : Prop := ReflTransGen w.Arc i j ∧ ReflTransGen w.Arc j i
  have hp : w.Convex part := fun _ _ _ hj hl hjk hkl =>
    ⟨hj.left.trans hjk, hkl.trans hl.right⟩
  have ⟨_, hs, hm⟩ := exists_settled_of_cyclesAmong hp (.init w part) fun c hc ha =>
    have ⟨j, hj, hn⟩ := hn c hc
    hn (ha j hj).left (ha j hj).right
  have ⟨_, ha, _⟩ := TransGen.head'_iff.mp h
  exact hs.irrefl (hm i ha.lt_size.left) (transGen_arcIn h .refl)

theorem cycles_eq_nil_iff (w : Wiring) : w.cycles = [] ↔ w.Acyclic := by
  constructor
  case mp =>
    intro h i ht
    have ⟨c, hc, _⟩ := exists_mem_cycles_of_transGen ht
    exact List.not_mem_nil (h ▸ hc)
  case mpr =>
    intro h
    apply List.eq_nil_iff_forall_not_mem.mpr
    intro c hc
    have ⟨i, ht⟩ := (isCycle_of_mem_cycles hc).transGen
    exact h i ht

end Wiring

end SignalFlow
