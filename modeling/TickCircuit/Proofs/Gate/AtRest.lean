import TickCircuit.Proofs.Gate.Host
import TickCircuit.Proofs.Gate.Stable
/-!
Links between ticks. Main statement: at every depth of a gate, and around the gate that a host
drives, whatever was written to a link has also reached its sink (`every_link_at_rest`).
-/
namespace TickCircuit

/-- No write is under way. -/
def LinkTable.AtRest (t : LinkTable) : Prop :=
  ∀ id l, t.get? id = some l → l.current = l.last

theorem LinkTable.atRest_updateAll (t : LinkTable) : t.updateAll.AtRest := by
  intro id l hl
  rw [get?, updateAll, Entries.get?_map Link.update] at hl
  obtain ⟨l₀, -, rfl⟩ := Option.map_eq_some_iff.mp hl
  rfl

theorem Gate.Inside.at? {P : Circuit Gate → Prop} {g a : Gate} (h : g.Inside P)
    {path : List GateId} (ha : g.at? path = some a) : a.Inside P := by
  induction path generalizing g with
  | nil =>
    cases ha
    exact h
  | cons id path ih =>
    obtain ⟨face, c, child, rfl, hchild, ha⟩ := at?_cons.mp ha
    obtain ⟨-, interior⟩ := inside_circuit_iff.mp h
    exact ih (Entries.Each.get? interior hchild) ha

namespace Circuit

theorem stable_atRest : Stable fun c => c.links.AtRest where
  empty registry id l hl := by cases hl
  withLink {c _ _ _ l} hc hj h id m hm := by
    rw [hc.wired.links_withLink, LinkTable.get?, Entries.get?_append] at hm
    obtain hm | ⟨-, hm⟩ := Option.or_eq_some_iff.mp hm
    · exact h id m hm
    · have hmem := Entries.mem_of_get? hm
      cases List.mem_singleton.mp hmem
      exact hj.current.trans hj.last.symm
  deleteLink {c} j hc h id l hl := by
    rw [links_deleteLink, LinkTable.get?, LinkTable.erase,
      Entries.get?_erase hc.wired.links_nodup] at hl
    split at hl
    · cases hl
    · exact h id l hl
  enlarged _ he h id l hl := by
    rw [LinkTable.get?, he.links] at hl
    exact h id l hl
  withoutGate _ _ h := h
  replaceGate _ _ h := h
  around _ _ _ h := h
  ticked {c} face outer _ _ id l' hl' := by
    rw [get?_ticked] at hl'
    obtain ⟨l, -, rfl⟩ := Option.map_eq_some_iff.mp hl'
    rfl

end Circuit

def Gate.AtRest (g : Gate) : Prop :=
  ∀ path face c, g.at? path = some (.circuit face c) → c.links.AtRest

theorem Gate.Reachable.atRest {g : Gate} (h : g.Reachable) : g.AtRest := by
  intro path face c ha
  obtain ⟨here, -⟩ := inside_circuit_iff.mp ((Circuit.stable_atRest.reachable h).at? ha)
  exact here

namespace Simulation
variable {s : Simulation}

theorem atRest_new {g : Gate} (h : Simulation.new g = .ok s) : s.links.AtRest := by
  obtain ⟨input, output, path, -, -, rfl⟩ := new_eq_ok.mp h
  intro id l hl
  obtain he | he := List.mem_cons.mp (Entries.mem_of_get? hl)
  · cases he
    rfl
  · cases List.mem_singleton.mp he
    rfl

theorem atRest_setInput (h : s.links.AtRest) (v : Value) : (s.setInput v).1.links.AtRest := by
  rw [Simulation.setInput]
  split
  · exact h
  · split
    · intro id l hl
      dsimp only at hl
      rw [LinkTable.get?, LinkTable.modify, Entries.get?_modify] at hl
      split at hl
      · obtain ⟨l₀, -, rfl⟩ := Option.map_eq_some_iff.mp hl
        rfl
      · exact h id l hl
    · exact h

theorem atRest_run (h : s.links.AtRest) (n : Nat) : (s.run n).1.links.AtRest := by
  induction n generalizing s with
  | zero => exact h
  | succ n ih => exact ih (LinkTable.atRest_updateAll _)

theorem atRest_act (h : s.links.AtRest) (a : Action) : (s.act a).links.AtRest := by
  cases a with
  | setInput v => exact atRest_setInput h v
  | tick => exact LinkTable.atRest_updateAll _
  | run n => exact atRest_run h n
  | edit path op => exact h

theorem atRest_after (hroot : s.root.Reachable) (h : s.links.AtRest) {actions : List Action}
    (legal : ∀ a ∈ actions, a.Legal) :
    (s.after actions).root.AtRest ∧ (s.after actions).links.AtRest := by
  induction actions generalizing s with
  | nil => exact ⟨hroot.atRest, h⟩
  | cons a later ih =>
    obtain ⟨legal, hlater⟩ := List.forall_mem_cons.mp legal
    exact ih (reachable_act hroot legal) (atRest_act h a) hlater

end Simulation

open Simulation (Action) in
/-- Whatever was done to a gate, and whatever faults came up in it, all that was written to the
links inside has reached their sinks. The same holds of the gate and the links of a simulation that
is run on it. -/
theorem every_link_at_rest {g : Gate} (h : g.Reachable) :
    g.AtRest ∧ ∀ s, Simulation.new g = .ok s →
      ∀ actions : List Action, (∀ a ∈ actions, a.Legal) →
        (s.after actions).root.AtRest ∧ (s.after actions).links.AtRest :=
  ⟨h.atRest, fun _ hs _ legal =>
    Simulation.atRest_after (h.driven hs) (Simulation.atRest_new hs) legal⟩

/-- A bit on its way through a wire. -/
theorem every_link_at_rest_wire : ∃ s face c l, Simulation.new Gate.wire = .ok s ∧
    (s.after [.setInput (.bit none true), .tick]).root.at? [] = some (.circuit face c) ∧
    c.links.get? 0 = some l ∧ l.current = some (.bit none true) ∧ l.current = l.last := by
  obtain ⟨-, hrun⟩ := every_link_at_rest Gate.reachable_wire
  obtain ⟨s, hnew⟩ : ∃ s, Simulation.new Gate.wire = .ok s := ⟨_, rfl⟩
  have hrest := (hrun s hnew [.setInput (.bit none true), .tick] ?_).1
  · cases hnew
    exact ⟨_, _, _, _, rfl, rfl, rfl, rfl, hrest [] _ _ rfl 0 _ rfl⟩
  · intro a ha path g he
    subst he
    simp at ha

end TickCircuit
