import SignalFlow.Proofs.Execution.Settled

/-!
A tick half way. A node finds at its turn what the nodes before it have left, and nobody touches it
before its turn or after it.
-/

namespace SignalFlow

namespace Progress

variable {p : Progress} {s : Surroundings} {id : String} {ids : List String}

-- A node is left alone while others have their turns, and so is its machine.
theorem get?_foldl (hid : id ∉ ids) :
    let after := ids.foldl (fun p id => (p.step s id).1) p
    after.plan.nodes.get? id = p.plan.nodes.get? id ∧
      after.plan.machines.get? id = p.plan.machines.get? id := by
  induction ids generalizing p
  case nil           => exact ⟨rfl, rfl⟩
  case cons k ids hi =>
    have ⟨hne, hid⟩ := not_or.mp <| mt List.mem_cons.mpr hid
    have ⟨hnodes, hmachines⟩ := @hi (p.step s k).1 hid
    suffices hk : (p.step s k).1.plan.nodes.get? id = p.plan.nodes.get? id ∧
        (p.step s k).1.plan.machines.get? id = p.plan.machines.get? id from
      ⟨hnodes.trans hk.left, hmachines.trans hk.right⟩
    cases hn : p.plan.nodes.get? k
    case none   => rw [step_of_get?_eq_none hn]; exact ⟨rfl, rfl⟩
    case some n => simp [get?_nodes_step hn, get?_machines_step hn, hne]

end Progress

namespace Plan

variable {p : Plan} {s : Surroundings} {id : String} {n : PlanNode} {done rest : List String}

-- The tick as far as the turns of some nodes.
def upTo (p : Plan) (s : Surroundings) (done : List String) : Progress :=
  done.foldl (fun p id => (p.step s id).1) { plan := p.reset }

theorem blank_upTo : (p.upTo s done).plan.blank = p.blank := by
  induction done using List.reverseRecOn
  case nil                     => exact blank_reset
  case append_singleton _ _ hi =>
    rw [upTo, List.foldl_append]
    exact Progress.blank_step.trans hi

theorem tick_eq_foldl (ho : p.order = done ++ rest) :
    p.tick s = rest.foldl (fun p id => (p.step s id).1) (p.upTo s done) := by
  rw [tick, ho, List.foldl_append, upTo]

-- Once it had its turn, a node is as the tick leaves it.
theorem get?_nodes_upTo (h : p.Causal) (ho : p.order = done ++ rest) (hid : id ∈ done) :
    (p.upTo s done).plan.nodes.get? id = (p.tick s).plan.nodes.get? id := by
  have hn : (done ++ rest).Nodup := ho ▸ h.nodup
  have hid : id ∉ rest := fun hr => (List.nodup_append.mp hn).right.right id hid id hr rfl
  rw [tick_eq_foldl ho, (Progress.get?_foldl hid).left]

-- The turn of a node is all that happens to it and to its machine.
theorem exists_turn_upTo (h : p.Causal) (ho : p.order = done ++ id :: rest)
    (hn : (p.tick s).plan.nodes.get? id = some n) :
    let q := p.upTo s done
    ∃ m, q.plan.nodes.get? id = some m ∧ n = m.enter (q.turn s id m).1 ∧
      q.plan.machines.get? id = p.machines.get? id ∧
      (p.tick s).plan.machines.get? id = (q.turn s id m).2 := by
  have hd : (done ++ id :: rest).Nodup := ho ▸ h.nodup
  have hid : id ∉ rest := (List.nodup_cons.mp (List.nodup_append.mp hd).right.left).left
  have hb : (p.upTo s done).plan.blank = (p.tick s).plan.blank :=
    blank_upTo.trans (blank_tick h s).symm
  have ⟨m, hm, _⟩ := exists_get?_of_blank_eq hb.symm hn
  refine ⟨m, hm, ?_, (Progress.get?_foldl (h.next ho).left).right, ?_⟩
  · rw [tick_eq_foldl ho, List.foldl_cons, (Progress.get?_foldl hid).left,
      Progress.get?_nodes_step hm, hm, Option.map_some, if_pos rfl] at hn
    exact (Option.some.inj hn).symm
  · rw [tick_eq_foldl ho, List.foldl_cons, (Progress.get?_foldl hid).right,
      Progress.get?_machines_step hm, if_pos rfl]

end Plan

end SignalFlow
