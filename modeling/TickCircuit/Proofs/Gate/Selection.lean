import TickCircuit.Proofs.Gate.Describe
import TickCircuit.Proofs.Gate.Influence
/-!
What a description says of a part of a circuit. The gates that are described are numbered, and a
link is described if both of its ends have a name by then. Main statement: a selection describes its
gates and the links between them, and the description of a whole circuit leaves no link out
(`selection_described`).
-/
namespace TickCircuit

section
variable {α : Type} [BEq α] [LawfulBEq α]

theorem idxOf_lt_of_filter {p : α → Bool} {xs : List α} {a b : α} (ha : p a = true)
    (hb : p b = true) (h : (xs.filter p).idxOf a < (xs.filter p).idxOf b) :
    xs.idxOf a < xs.idxOf b := by
  induction xs with
  | nil => exact h
  | cons x xs ih =>
    by_cases hx : p x = true
    · rw [List.filter_cons_of_pos hx] at h
      by_cases hxb : x = b
      · subst hxb
        simp at h
      · by_cases hxa : x = a
        · subst hxa
          simp [List.idxOf_cons_ne _ hxb]
        · rw [List.idxOf_cons_ne _ hxa, List.idxOf_cons_ne _ hxb] at h ⊢
          exact Nat.succ_lt_succ (ih (Nat.lt_of_succ_lt_succ h))
    · rw [List.filter_cons_of_neg hx] at h
      have hxa : x ≠ a := fun he => hx (he ▸ ha)
      have hxb : x ≠ b := fun he => hx (he ▸ hb)
      rw [List.idxOf_cons_ne _ hxa, List.idxOf_cons_ne _ hxb]
      exact Nat.succ_lt_succ (ih h)

/-- Of repeated values the first ones are kept. -/
theorem pairwise_eraseDups (xs : List α) :
    xs.eraseDups.Pairwise fun a b => xs.idxOf a < xs.idxOf b := by
  match xs with
  | [] => exact .nil
  | x :: xs =>
    have hrest := pairwise_eraseDups (xs.filter fun y => !y == x)
    have hne : ∀ {y}, y ∈ (xs.filter fun y => !y == x).eraseDups → y ≠ x := by
      intro y hy he
      rw [List.mem_eraseDups, List.mem_filter, he] at hy
      simp at hy
    rw [List.eraseDups_cons]
    refine List.pairwise_cons.mpr ⟨fun y hy => ?_, hrest.imp_of_mem fun ha hb hlt => ?_⟩
    · simp [List.idxOf_cons_ne _ (hne hy).symm]
    · rw [List.idxOf_cons_ne _ (hne ha).symm, List.idxOf_cons_ne _ (hne hb).symm]
      exact Nat.succ_lt_succ
        (idxOf_lt_of_filter (by simpa using hne ha) (by simpa using hne hb) hlt)
termination_by xs.length
decreasing_by exact Nat.lt_succ_of_le (List.length_filter_le _ _)

end

theorem forall₂_filterMap {α β : Type} {R : α → β → Prop} {f : α → Option β}
    (h : ∀ a b, f a = some b → R a b) (xs : List α) :
    List.Forall₂ R (xs.filter fun a => (f a).isSome) (xs.filterMap f) := by
  induction xs with
  | nil => exact .nil
  | cons x xs ih =>
    cases hx : f x with
    | none => simpa [hx] using ih
    | some b =>
      simp only [List.filter_cons, hx, Option.isSome_some, List.filterMap_cons, if_true]
      exact .cons (h x b hx) ih

/-- `spec` names the end `e` where `ids` are the gates that have a number: a gate is named by its
place among them. -/
inductive Endpoint.Named (ids : List GateId) : Endpoint → EndSpec → Prop
  | gate {n id path} : ids[n]? = some id →
      Named ids ⟨.gate id, path⟩ ⟨.gate (Circuit.numberText n), Path.spec path⟩
  | boundary {path} : Named ids ⟨.boundary, path⟩ ⟨.outside, Path.spec path⟩

def Endpoint.within (ids : List GateId) (e : Endpoint) : Bool :=
  match e.node with
  | .gate id => ids.contains id
  | .boundary | .host => false

namespace Endpoint
variable {ids : List GateId} {e : Endpoint} {withBoundary : Bool} {spec : EndSpec}

theorem named_endSpec? (h : Circuit.endSpec? ids withBoundary e = some spec) :
    e.Named ids spec := by
  obtain ⟨node, path⟩ := e
  cases node with
  | gate id =>
    obtain ⟨n, hn, rfl⟩ := Option.map_eq_some_iff.mp h
    obtain ⟨hlt, hid, -⟩ := List.idxOf?_eq_some_iff.mp hn
    exact .gate (List.getElem?_eq_some_iff.mpr ⟨hlt, by simpa using hid⟩)
  | boundary =>
    cases withBoundary with
    | true =>
      cases h
      exact .boundary
    | false => cases h
  | host => cases h

theorem isSome_endSpec? : (Circuit.endSpec? ids false e).isSome = e.within ids := by
  obtain ⟨node, path⟩ := e
  cases node with
  | gate id =>
    rw [Bool.eq_iff_iff, Circuit.endSpec?, Option.isSome_map, List.isSome_idxOf?]
    exact List.contains_iff_mem.symm
  | boundary => rfl
  | host => rfl

theorem Named.legible (h : e.Named ids spec) (hpath : (Path.spec e.path).Fits) :
    spec.Legible := by
  cases h with
  | gate => exact ⟨GateRef.legible_number _, hpath⟩
  | boundary => exact ⟨trivial, hpath⟩

end Endpoint

namespace Link

def within (ids : List GateId) (l : Link) : Bool := l.source.within ids && l.sink.within ids

/-- The text of the link can be read: the indices in its paths are machine words, and so is the
literal. -/
structure Readable (l : Link) : Prop where
  paths : ∀ d, (Path.spec (l.endAt d).path).Fits
  literal : ∀ v, l.last = some v → Value.parse v.print = .ok v

/-- The text names both ends of the link and what it carried last; so it is also read. -/
def SaidBy (ids : List GateId) (l : Link) (text : String) : Prop :=
  ∃ source sink, l.source.Named ids source ∧ l.sink.Named ids sink ∧
    text = String.ofList (LinkSpec.text ⟨source, sink, l.last⟩) ∧
    (l.Readable → LinkSpec.parse text.toList = .ok ⟨source, sink, l.last⟩)

variable {ids : List GateId} {withBoundary : Bool} {l : Link}

theorem saidBy_linkText? {text : String} (h : Circuit.linkText? ids withBoundary l = some text) :
    l.SaidBy ids text := by
  obtain ⟨source, hsource, h⟩ := Option.bind_eq_some_iff.mp h
  obtain ⟨sink, hsink, h⟩ := Option.bind_eq_some_iff.mp h
  cases h
  have hfrom := Endpoint.named_endSpec? hsource
  have hto := Endpoint.named_endSpec? hsink
  refine ⟨source, sink, hfrom, hto, rfl, fun hl => ?_⟩
  rw [String.toList_ofList]
  exact LinkSpec.parse_text (hfrom.legible (hl.paths .output)) (hto.legible (hl.paths .input))
    hl.literal

theorem isSome_linkText? : (Circuit.linkText? ids withBoundary l).isSome =
    ((Circuit.endSpec? ids withBoundary l.source).isSome &&
      (Circuit.endSpec? ids withBoundary l.sink).isSome) := by
  cases hsource : Circuit.endSpec? ids withBoundary l.source with
  | none => simp [Circuit.linkText?, hsource]
  | some source =>
    cases hsink : Circuit.endSpec? ids withBoundary l.sink with
    | none => simp [Circuit.linkText?, hsource, hsink]
    | some sink => simp [Circuit.linkText?, hsource, hsink]

end Link

namespace Circuit

/-- The gates of a selection that there are, each once, in the order in which they come first. -/
structure Picked (c : Circuit Gate) (selection ids : List GateId) : Prop where
  mem_iff : ∀ id, id ∈ ids ↔ id ∈ selection ∧ id ∈ c.gateIds
  order : ids.Pairwise fun a b => selection.idxOf a < selection.idxOf b

/-- A description has the gates `ids`, numbered from zero on, and the links `ls`. -/
structure Describes (c : Circuit Gate) (ids : List GateId) (ls : List Link) (d : Description) :
    Prop where
  gates : List.Forall₂
    (fun place entry => ∃ g, c.gate? place.1 = some g ∧ entry = .numbered place.2 g.tag)
    ids.zipIdx d.gates
  links : List.Forall₂ (Link.SaidBy ids) ls d.links

variable {c : Circuit Gate}

theorem picked_selected (c : Circuit Gate) (selection : List GateId) :
    c.Picked selection (c.selected selection) where
  mem_iff id := by
    rw [selected, List.mem_eraseDups, List.mem_filter, hasGate, Entries.has_eq_true_iff]
    rfl
  order := by
    refine (pairwise_eraseDups _).imp_of_mem fun ha hb hlt => ?_
    rw [selected, List.mem_eraseDups, List.mem_filter] at ha hb
    exact idxOf_lt_of_filter ha.2 hb.2 hlt

theorem describes_describe (c : Circuit Gate) (selection : List GateId) (withBoundary : Bool) :
    c.Describes (c.selected selection)
      ((c.links.entries.map (·.2)).filter fun l =>
        (linkText? (c.selected selection) withBoundary l).isSome)
      (c.describe selection withBoundary) where
  gates := by
    have hall : (c.selected selection).zipIdx.filter
        (fun place => (c.entryOf? place.1 place.2).isSome) = (c.selected selection).zipIdx := by
      refine List.filter_eq_self.mpr fun place hplace => ?_
      have hid := (((c.picked_selected selection).mem_iff _).mp
        (List.fst_mem_of_mem_zipIdx hplace)).2
      obtain ⟨g, hg⟩ := Entries.mem_keys_iff.mp hid
      simp [entryOf?, gate?, hg]
    rw [← hall]
    refine forall₂_filterMap (fun place entry he => ?_) _
    obtain ⟨g, hg, rfl⟩ := Option.map_eq_some_iff.mp he
    exact ⟨g, hg, rfl⟩
  links := by
    have hlinks : (c.describe selection withBoundary).links =
        (c.links.entries.map (·.2)).filterMap (linkText? (c.selected selection) withBoundary) := by
      rw [List.filterMap_map]
      rfl
    rw [hlinks]
    exact forall₂_filterMap (fun l text => Link.saidBy_linkText?) _

theorem Wired.isSome_endSpec? (h : c.Wired) {id : LinkId} {l : Link}
    (hl : c.links.get? id = some l) (d : Direction) :
    (Circuit.endSpec? c.gateIds true (l.endAt d)).isSome = true := by
  obtain hn | ⟨gid, hgid, hn⟩ := h.node_endAt hl d
  · simp [Circuit.endSpec?, hn]
  · simp [Circuit.endSpec?, hn, hgid]

theorem Wired.described (h : c.Wired) :
    c.Describes c.gateIds (c.links.entries.map (·.2)) c.describeAll := by
  have hall : (c.links.entries.map (·.2)).filter
      (fun l => (linkText? c.gateIds true l).isSome) = c.links.entries.map (·.2) := by
    refine List.filter_eq_self.mpr fun l hl => ?_
    obtain ⟨e, he, rfl⟩ := List.mem_map.mp hl
    have hget := Entries.get?_of_mem h.links_nodup he
    rw [Link.isSome_linkText?, Bool.and_eq_true]
    exact ⟨h.isSome_endSpec? hget .output, h.isSome_endSpec? hget .input⟩
  have hdescribes := c.describes_describe c.gateIds true
  rwa [selected_gateIds h.gates_nodup, hall] at hdescribes

end Circuit

/-- A selection describes its gates, in the order in which it names them first, and all links
between them; the description of the whole circuit has all gates and all links. -/
theorem selection_described {face : Face} {c : Circuit Gate}
    (hc : (Gate.circuit face c).Reachable) :
    (∀ selection, ∃ ids, c.Picked selection ids ∧
      c.Describes ids ((c.links.entries.map (·.2)).filter (·.within ids))
        (c.describe selection false)) ∧
    c.Picked c.gateIds c.gateIds ∧
    c.Describes c.gateIds (c.links.entries.map (·.2)) c.describeAll := by
  obtain ⟨-, -, hs⟩ := Gate.sound_circuit_iff.mp hc.sound
  have hwired := hs.wired
  refine ⟨fun selection => ⟨_, c.picked_selected selection, ?_⟩, ?_, hwired.described⟩
  · have hdescribes := c.describes_describe selection false
    simpa only [Link.isSome_linkText?, Endpoint.isSome_endSpec?, Link.within] using hdescribes
  · have hpicked := c.picked_selected c.gateIds
    rwa [Circuit.selected_gateIds hwired.gates_nodup] at hpicked

/-- Of the three links of the chain the one to the boundary is between no two gates. -/
theorem selection_described_chain :
    (∃ ids, Circuit.chain.Picked [2, 7, 1, 2, 0] ids ∧
      Circuit.chain.Describes ids
        ((Circuit.chain.links.entries.map (·.2)).filter (·.within ids))
        (Circuit.chain.describe [2, 7, 1, 2, 0] false)) ∧
    (Circuit.chain.describe [2, 7, 1, 2, 0] false).links = ["2=>1:0", "0=>0"] ∧
    Circuit.chain.Describes Circuit.chain.gateIds (Circuit.chain.links.entries.map (·.2))
      Circuit.chain.describeAll ∧
    Circuit.chain.describeAll.links = ["0=>1:0", "1=>outside", "2=>2"] := by
  obtain ⟨hselection, -, hall⟩ := selection_described Gate.reachable_chain
  exact ⟨hselection _, by decide, hall, by decide⟩

end TickCircuit
