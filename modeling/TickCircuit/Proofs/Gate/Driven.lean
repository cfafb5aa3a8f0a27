import TickCircuit.Proofs.Gate.Frame
import TickCircuit.Proofs.Gate.Spelling
/-!
Simulations as runs of a circuit. A simulation has two links, one to the input of its root and one
from the output. Main statement: what it makes of its root by ticks, and by inputs that are read, is
what a circuit comes to that is fed (`Simulation.Runs.fed`).
-/
namespace TickCircuit

theorem Port.only_link {p p' : Port} {path : Path} {id : LinkId}
    (hfree : ∀ π, p.linksAt π = [])
    (hlinks : ∀ π, p'.linksAt π = p.linksAt π ++ if π = path then [id] else []) :
    ∀ j ∈ p'.allLinks, j = id := by
  intro j hj
  obtain ⟨π, hj⟩ := Port.mem_allLinks.mp hj
  rw [hlinks, hfree, List.nil_append] at hj
  split at hj
  · exact List.mem_singleton.mp hj
  · cases hj

namespace Simulation

/-- What a simulation comes to by ticks and by inputs that were read. -/
inductive Runs (s : Simulation) : Simulation → Prop where
  | refl : Runs s s
  | setInput {s' : Simulation} (h : Runs s s') {text : List Char} {v : Value}
    (literal : parseLiteral text = .ok (some v)) : Runs s (s'.setInput v).1
  | tick {s' : Simulation} (h : Runs s s') : Runs s s'.tick

/-- No links but those of the simulation are at its root, and what goes in was read. -/
structure Driven (s : Simulation) : Prop where
  sound : s.root.Sound
  input : ∀ id ∈ s.root.input.allLinks, id = inputLink
  output : ∀ id ∈ s.root.output.allLinks, id = outputLink
  literal : ∀ l, s.links.get? inputLink = some l → ∀ v, l.current = some v ∨ l.last = some v →
    ∃ text, parseLiteral text = .ok (some v)

theorem fed_new {face : Face} {c : Circuit Gate} {s : Simulation}
    (hs : (Gate.circuit face c).Sound) (hfree : (Gate.circuit face c).Unlinked)
    (h : Simulation.new (.circuit face c) = .ok s) :
    s.Driven ∧ (Gate.circuit face c).Fed s.root := by
  have hsound := hs.driven h
  obtain ⟨input, output, path, hin, hout, rfl⟩ := Simulation.new_eq_ok.mp h
  obtain ⟨-, hitype, hilinks⟩ := Port.Shaped.connected (hs.shaped .input) hin
  have houter : face.output.resolve [] = .ok ⟨[], _, _⟩ := rfl
  obtain ⟨-, -, hotype, -⟩ := Port.attach_resolved (hs.shaped .output) houter outputLink
  have holinks : ∀ π, (face.output.attach [] outputLink).1.linksAt π =
      face.output.linksAt π ++ if π = [] then [outputLink] else [] :=
    Port.linksAt_attach rfl outputLink
  have hout : face.output.attach [] outputLink = (output, .ok ()) := hout
  rw [Gate.port, Gate.output, Gate.face, hout] at hotype
  rw [hout] at holinks
  have hionly := Port.only_link (hfree .input) hilinks
  have hoonly := Port.only_link (hfree .output) holinks
  refine ⟨⟨hsound, hionly, hoonly, fun l hl v hv => ?_⟩, Gate.Fed.refl.rewired hitype hotype⟩
  cases hl
  obtain hv | hv := hv <;> cases hv

theorem Driven.setInput {s : Simulation} (h : s.Driven) {text : List Char} {v : Value}
    (literal : parseLiteral text = .ok (some v)) : (s.setInput v).1.Driven := by
  rw [Simulation.setInput]
  split
  · exact h
  · split
    · refine ⟨h.sound, h.input, h.output, fun l hl w hw => ?_⟩
      dsimp only at hl
      rw [LinkTable.get?, LinkTable.modify, Entries.get?_modify, if_pos rfl] at hl
      obtain ⟨l, -, rfl⟩ := Option.map_eq_some_iff.mp hl
      have hv : some v = some w := by
        obtain hw | hw := hw <;> exact hw
      cases hv
      exact ⟨text, literal⟩
    · exact h

theorem Driven.tick {s : Simulation} (h : s.Driven) : s.tick.Driven := by
  have hport : ∀ d, s.tick.root.port d = s.root.port d := s.root.port_update s.links
  have hinput : s.tick.root.input = s.root.input := hport .input
  have houtput : s.tick.root.output = s.root.output := hport .output
  refine ⟨h.sound.update s.links, hinput ▸ h.input, houtput ▸ h.output, fun l hl v hv => ?_⟩
  have hwrites : ∀ w, (inputLink, w) ∉ s.root.writes s.links := fun w hw =>
    absurd (h.output _ (Gate.mem_allLinks_of_writes hw)) (by decide)
  have hlinks : s.tick.links = (s.root.update s.links).2.updateAll := rfl
  rw [hlinks, Gate.update_snd h.sound.shaped, LinkTable.get?, LinkTable.updateAll,
    Entries.get?_map Link.update, ← LinkTable.get?,
    LinkTable.get?_writeEach_of_not_mem hwrites] at hl
  obtain ⟨l₀, hl₀, rfl⟩ := Option.map_eq_some_iff.mp hl
  refine h.literal l₀ hl₀ v (.inl ?_)
  obtain hv | hv := hv <;> exact hv

theorem Runs.fed {face : Face} {c : Circuit Gate} {s s' : Simulation}
    (hs : (Gate.circuit face c).Sound) (hfree : (Gate.circuit face c).Unlinked)
    (hnew : Simulation.new (.circuit face c) = .ok s) (ran : s.Runs s') :
    s'.Driven ∧ (Gate.circuit face c).Fed s'.root := by
  induction ran with
  | refl => exact fed_new hs hfree hnew
  | @setInput s' _ text v literal ih =>
    obtain ⟨hdriven, hfed⟩ := ih
    exact ⟨hdriven.setInput literal, (s'.root_setInput v).symm ▸ hfed⟩
  | @tick s' _ ih =>
    obtain ⟨hdriven, hfed⟩ := ih
    refine ⟨hdriven.tick, hfed.tick s'.links fun id hid l v hl hv => ?_⟩
    rw [hdriven.input id hid] at hl
    exact hdriven.literal l hl v (.inr hv)

end Simulation
end TickCircuit
