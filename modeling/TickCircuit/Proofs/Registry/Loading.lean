import TickCircuit.Proofs.Grammar.RoundTrip
import TickCircuit.Proofs.Json.Loading
import TickCircuit.Registry.Document
/-!
What is known of a registry that was loaded: its names differ, every template has its one body,
every interface could be written in a text and every coordinate is finite (`Loaded.of_ofText`).
-/
namespace TickCircuit
open Grammar Json Decoder

namespace Position

def coordinates (p : Position) : List Float := [p.x, p.y]

def Finite (p : Position) : Prop := ∀ x ∈ p.coordinates, x.isFinite = true

theorem finite_iff {p : Position} : p.Finite ↔ p.x.isFinite = true ∧ p.y.isFinite = true := by
  simp [Finite, coordinates]

theorem yields_decode : Yields Finite decode := by
  intro v p hv h
  unfold decode at h
  split at h
  · obtain ⟨⟨x, y⟩, hfields, h⟩ := bind_eq_ok.mp h
    obtain ⟨x', hx, h⟩ := bind_eq_ok.mp h
    obtain ⟨y', hy, h⟩ := bind_eq_ok.mp h
    cases h
    have hfinite : (∀ a ∈ x, a.isFinite = true) ∧ ∀ a ∈ y, a.isFinite = true := by
      refine yields_members (Q := fun fields => (∀ a ∈ fields.1, a.isFinite = true) ∧
        ∀ a ∈ fields.2, a.isFinite = true) (fun fields key hfinite v fields' hv h => ?_) hv.members
        ⟨nofun, nofun⟩ hfields
      dsimp only at h
      split at h
      · obtain ⟨a, ha, rfl⟩ := yields_float.put hv h
        exact ⟨by simpa using ha, hfinite.2⟩
      · obtain ⟨a, ha, rfl⟩ := yields_float.put hv h
        exact ⟨hfinite.1, by simpa using ha⟩
      · exact eq_of_skip h ▸ hfinite
    exact finite_iff.mpr ⟨hfinite.1 _ (require_eq_ok.mp hx), hfinite.2 _ (require_eq_ok.mp hy)⟩
  · obtain ⟨⟨x, items⟩, hx, h⟩ := bind_eq_ok.mp h
    obtain ⟨⟨y, rest⟩, hy, h⟩ := bind_eq_ok.mp h
    obtain ⟨-, -, h⟩ := bind_eq_ok.mp h
    cases h
    obtain ⟨hxf, hitems⟩ := yields_float.field (fun _ h => absurd h tooShort_ne_ok) hv.items hx
    obtain ⟨hyf, -⟩ := yields_float.field (fun _ h => absurd h tooShort_ne_ok) hitems hy
    exact finite_iff.mpr ⟨hxf, hyf⟩
  · cases h

end Position

namespace GateEntry

def coordinates (g : GateEntry) : List Float := g.position.elim [] Position.coordinates

def Finite (g : GateEntry) : Prop := ∀ x ∈ g.coordinates, x.isFinite = true

theorem finite_of_position {id typeName : String} {position : Option Position}
    (h : ∀ p ∈ position, p.Finite) : Finite ⟨id, typeName, position⟩ := by
  cases position with
  | none => nofun
  | some p => exact h p rfl

theorem yields_decode : Yields Finite decode := by
  intro v g hv h
  have hposition := Position.yields_decode.optional
  unfold decode at h
  split at h
  · obtain ⟨⟨id, typeName, position⟩, hfields, h⟩ := bind_eq_ok.mp h
    obtain ⟨id', -, h⟩ := bind_eq_ok.mp h
    obtain ⟨typeName', -, h⟩ := bind_eq_ok.mp h
    cases h
    have hfinite : ∀ o ∈ position, ∀ p ∈ o, p.Finite := by
      refine yields_members (Q := fun fields => ∀ o ∈ fields.2.2, ∀ p ∈ o, p.Finite)
        (fun fields key hfinite v fields' hv h => ?_) hv.members nofun hfields
      dsimp only at h
      split at h
      · obtain ⟨-, -, rfl⟩ := map_eq_ok.mp h
        exact hfinite
      · obtain ⟨-, -, rfl⟩ := map_eq_ok.mp h
        exact hfinite
      · obtain ⟨o, ho, rfl⟩ := hposition.put hv h
        rintro _ ⟨⟩
        exact ho
      · exact eq_of_skip h ▸ hfinite
    exact finite_of_position
      (getD_of_forall (P := fun o : Option Position => ∀ p ∈ o, p.Finite) hfinite nofun)
  · obtain ⟨⟨id, items⟩, hid, h⟩ := bind_eq_ok.mp h
    obtain ⟨⟨typeName, rest⟩, htypeName, h⟩ := bind_eq_ok.mp h
    obtain ⟨⟨position, rest'⟩, hp, h⟩ := bind_eq_ok.mp h
    obtain ⟨-, -, h⟩ := bind_eq_ok.mp h
    cases h
    have hitems := ((yields_true text).field (fun _ _ => trivial) hv.items hid).2
    have hrest := ((yields_true text).field (fun _ _ => trivial) hitems htypeName).2
    exact finite_of_position (hposition.field (by rintro _ ⟨⟩; nofun) hrest hp).1
  · cases h

end GateEntry

namespace Description

def coordinates (d : Description) : List Float := d.gates.flatMap GateEntry.coordinates

def Finite (d : Description) : Prop := ∀ x ∈ d.coordinates, x.isFinite = true

theorem finite_of_gates {gates : List GateEntry} {links : List String}
    (h : ∀ g ∈ gates, g.Finite) : Finite ⟨gates, links⟩ := by
  intro x hx
  obtain ⟨g, hg, hx⟩ := List.mem_flatMap.mp hx
  exact h g hg x hx

theorem yields_decode : Yields Finite decode := by
  intro v d hv h
  have hgates := GateEntry.yields_decode.list
  unfold decode at h
  split at h
  · obtain ⟨⟨gates, links⟩, hfields, h⟩ := bind_eq_ok.mp h
    cases h
    have hfinite : ∀ gs ∈ gates, ∀ g ∈ gs, g.Finite := by
      refine yields_members (Q := fun fields => ∀ gs ∈ fields.1, ∀ g ∈ gs, g.Finite)
        (fun fields key hfinite v fields' hv h => ?_) hv.members nofun hfields
      dsimp only at h
      split at h
      · obtain ⟨gs, hgs, rfl⟩ := hgates.put hv h
        rintro _ ⟨⟩
        exact hgs
      · obtain ⟨-, -, rfl⟩ := map_eq_ok.mp h
        exact hfinite
      · obtain ⟨-, -, rfl⟩ := map_eq_ok.mp h
        exact hfinite
      · exact eq_of_skip h ▸ hfinite
    exact finite_of_gates
      (getD_of_forall (P := fun gs : List GateEntry => ∀ g ∈ gs, g.Finite) hfinite nofun)
  · obtain ⟨⟨gates, items⟩, hg, h⟩ := bind_eq_ok.mp h
    obtain ⟨⟨links, rest⟩, -, h⟩ := bind_eq_ok.mp h
    obtain ⟨-, -, h⟩ := bind_eq_ok.mp h
    cases h
    exact finite_of_gates (hgates.field (by rintro _ ⟨⟩; nofun) hv.items hg).1
  · cases h

end Description

theorem Interface.yields_decode : Yields (·.WellLabelled true) Interface.decode := by
  intro v i _ h
  obtain ⟨text, -, h⟩ := bind_eq_ok.mp h
  split at h
  next hparse =>
    cases h
    have hrendering : Rendering true text.toList _ := rendering_of_parse hparse nofun
    exact hrendering.wellLabelled
  · cases h

theorem Interface.wellLabelled_default : (default : Interface).WellLabelled true :=
  .any (.none true)

namespace Io

structure WellLabelled (io : Io) : Prop where
  input : io.input.WellLabelled true
  output : io.output.WellLabelled true

theorem yields_decode : Yields WellLabelled decode := by
  intro v io hv h
  unfold decode at h
  split at h
  · obtain ⟨⟨input, output⟩, hfields, h⟩ := bind_eq_ok.mp h
    cases h
    have hlabelled : (∀ i ∈ input, i.WellLabelled true) ∧ ∀ i ∈ output, i.WellLabelled true := by
      refine yields_members (Q := fun fields => (∀ i ∈ fields.1, i.WellLabelled true) ∧
        ∀ i ∈ fields.2, i.WellLabelled true) (fun fields key hlabelled v fields' hv h => ?_)
        hv.members ⟨nofun, nofun⟩ hfields
      dsimp only at h
      split at h
      · obtain ⟨i, hi, rfl⟩ := Interface.yields_decode.put hv h
        exact ⟨by simpa using hi, hlabelled.2⟩
      · obtain ⟨i, hi, rfl⟩ := Interface.yields_decode.put hv h
        exact ⟨hlabelled.1, by simpa using hi⟩
      · exact eq_of_skip h ▸ hlabelled
    exact ⟨getD_of_forall hlabelled.1 Interface.wellLabelled_default,
      getD_of_forall hlabelled.2 Interface.wellLabelled_default⟩
  · obtain ⟨⟨input, items⟩, hi, h⟩ := bind_eq_ok.mp h
    obtain ⟨⟨output, rest⟩, ho, h⟩ := bind_eq_ok.mp h
    obtain ⟨-, -, h⟩ := bind_eq_ok.mp h
    cases h
    have hdefault : ∀ i, (.ok default : Except Json.Flaw Interface) = .ok i → i.WellLabelled true := by
      rintro _ ⟨⟩
      exact Interface.wellLabelled_default
    obtain ⟨hinput, hitems⟩ := Interface.yields_decode.field hdefault hv.items hi
    exact ⟨hinput, (Interface.yields_decode.field hdefault hitems ho).1⟩
  · cases h

end Io

namespace Template

def coordinates (t : Template) : List Float := t.circuit.elim [] Description.coordinates

structure Loaded (t : Template) : Prop where
  io : t.io.WellLabelled
  finite : ∀ x ∈ t.coordinates, x.isFinite = true

theorem loaded_of_parts {io : Io} {transform : Option String} {circuit : Option Description}
    (hio : io.WellLabelled) (hcircuit : ∀ d ∈ circuit, d.Finite) :
    Loaded ⟨io, transform, circuit⟩ := by
  refine ⟨hio, ?_⟩
  cases circuit with
  | none => nofun
  | some d => exact hcircuit d rfl

theorem yields_decode : Yields Loaded decode := by
  intro v t hv h
  have hcircuit := Description.yields_decode.optional
  unfold decode at h
  split at h
  · obtain ⟨⟨io, transform, circuit⟩, hfields, h⟩ := bind_eq_ok.mp h
    obtain ⟨io', hio, h⟩ := bind_eq_ok.mp h
    cases h
    have hloaded : (∀ i ∈ io, i.WellLabelled) ∧ ∀ o ∈ circuit, ∀ d ∈ o, d.Finite := by
      refine yields_members (Q := fun fields => (∀ i ∈ fields.1, i.WellLabelled) ∧
        ∀ o ∈ fields.2.2, ∀ d ∈ o, d.Finite) (fun fields key hloaded v fields' hv h => ?_)
        hv.members ⟨nofun, nofun⟩ hfields
      dsimp only at h
      split at h
      · obtain ⟨i, hi, rfl⟩ := Io.yields_decode.put hv h
        exact ⟨by simpa using hi, hloaded.2⟩
      · obtain ⟨-, -, rfl⟩ := map_eq_ok.mp h
        exact hloaded
      · obtain ⟨o, ho, rfl⟩ := hcircuit.put hv h
        exact ⟨hloaded.1, by simpa using ho⟩
      · exact eq_of_skip h ▸ hloaded
    exact loaded_of_parts (hloaded.1 _ (require_eq_ok.mp hio))
      (getD_of_forall (P := fun o : Option Description => ∀ d ∈ o, d.Finite) hloaded.2 nofun)
  · obtain ⟨⟨io, items⟩, hio, h⟩ := bind_eq_ok.mp h
    obtain ⟨⟨transform, rest⟩, htransform, h⟩ := bind_eq_ok.mp h
    obtain ⟨⟨circuit, rest'⟩, hd, h⟩ := bind_eq_ok.mp h
    obtain ⟨-, -, h⟩ := bind_eq_ok.mp h
    cases h
    obtain ⟨hlabelled, hitems⟩ :=
      Io.yields_decode.field (fun _ h => absurd h tooShort_ne_ok) hv.items hio
    have hrest := ((yields_true (optional text)).field (fun _ _ => trivial) hitems htransform).2
    exact loaded_of_parts hlabelled (hcircuit.field (by rintro _ ⟨⟩; nofun) hrest hd).1
  · cases h

end Template

namespace Registry

def coordinates (r : Registry) : List Float := r.templates.flatMap fun m => m.2.coordinates

structure Loaded (r : Registry) : Prop where
  natives : r.natives = []
  nodup : r.templates.keys.Nodup
  body : ∀ m ∈ r.templates, ∃ b, m.2.body m.1 = .ok b
  templates : ∀ m ∈ r.templates, m.2.Loaded

theorem Loaded.finite {r : Registry} (h : r.Loaded) : ∀ x ∈ r.coordinates, x.isFinite = true := by
  intro x hx
  obtain ⟨m, hm, hx⟩ := List.mem_flatMap.mp hx
  exact (h.templates m hm).finite x hx

theorem ofText_eq_ok {text : String} {r : Registry} : ofText text = .ok r ↔
    ∃ entries, document (map Template.decode) text = .ok entries ∧
      (∀ m ∈ Entries.putAll [] entries, ∃ b, m.2.body m.1 = .ok b) ∧
      ⟨Entries.putAll [] entries, []⟩ = r := by
  have hbodies : ∀ templates : List (String × Template),
      (templates.forM fun m => do let _ ← m.2.body m.1) = .ok () ↔
        ∀ m ∈ templates, ∃ b, m.2.body m.1 = .ok b := by
    intro templates
    rw [forM_eq_ok]
    refine forall₂_congr fun m _ => ?_
    rw [bind_eq_ok]
    exact exists_congr fun b => and_iff_left rfl
  constructor
  · intro h
    obtain ⟨entries, hentries, h⟩ := bind_eq_ok.mp h
    obtain ⟨⟨⟩, hforM, h⟩ := bind_eq_ok.mp h
    exact ⟨entries, mapError_eq_ok.mp hentries, (hbodies _).mp hforM, Except.ok.inj h⟩
  · rintro ⟨entries, hentries, hbody, rfl⟩
    refine bind_eq_ok.mpr ⟨entries, mapError_eq_ok.mpr hentries, ?_⟩
    exact bind_eq_ok.mpr ⟨(), (hbodies _).mpr hbody, rfl⟩

theorem Loaded.of_ofText {text : String} {r : Registry} (h : ofText text = .ok r) : r.Loaded := by
  obtain ⟨entries, hentries, hbody, rfl⟩ := ofText_eq_ok.mp h
  have hloaded := Template.yields_decode.map _ _ (Draft.finite_ofText text)
    (decode_of_document hentries)
  have hnodup := @Entries.nodup_keys_putAll _ _ _ [] List.nodup_nil entries
  exact ⟨rfl, hnodup, hbody, fun m hm => hloaded m (Entries.mem_of_mem_putAll hm hnodup)⟩

end Registry
end TickCircuit
