import TickCircuit.Proofs.Gate.LinkType
import TickCircuit.Proofs.Gate.Reachable
/-!
What may be linked can be merged. Whether a link is made is a question put to its sink about its
source, and the type of a link is its source merged with its sink. Main statement: the two never
disagree (`linked_can_be_merged`).
-/
namespace TickCircuit
namespace Circuit

/-- The type of a link, as it stands in the circuit: its sink takes what it was made for, and the
two are merged. -/
structure TypedAs (c : Circuit Gate) (id : LinkId) (l : Link) (taken merged : Interface) :
    Prop where
  here : c.links.get? id = some l
  source : c.typeAt? .output l.source = some l.data
  sink : c.typeAt? .input l.sink = some taken
  admits : taken.admits l.data = true
  merge : l.data.merge taken = .ok merged
  type : c.linkType id = .ok merged

theorem Wired.typedAs_withLink {c : Circuit Gate} (h : c.Wired) {start end_ : LinkEnd}
    {literal : Option Value} {l : Link} (hj : Joins c start end_ literal l) :
    ∃ taken merged, (c.withLink l).TypedAs c.links.nextId l taken merged := by
  obtain ⟨hsource, t, hsink, hadmits⟩ := (h.fits_withLink hj l).mpr (hj.fits h)
  obtain ⟨m, hm⟩ := (Interface.agree_of_admits hadmits).symm.merge
  have hl : (c.withLink l).links.get? c.links.nextId = some l := by
    rw [h.get?_withLink, if_pos rfl]
  have htype := (h.withLink hj).linkType_eq hl hsource hsink
  rw [hm] at htype
  exact ⟨t, m, hl, hsource, hsink, hadmits, hm, htype⟩

end Circuit

/-- What a sink admits can be merged with it from either side, and whether two interfaces can be
merged does not depend on their order. So a link has a type as soon as it is made, although its sink
was asked then, and it is its source that is merged. -/
theorem linked_can_be_merged :
    (∀ sink source : Interface, sink.admits source = true →
      (∃ m, sink.merge source = .ok m) ∧ ∃ m, source.merge sink = .ok m) ∧
    (∀ a b : Interface, (∃ m, a.merge b = .ok m) ↔ ∃ m, b.merge a = .ok m) ∧
    ∀ {face : Face} {c : Circuit Gate}, (Gate.circuit face c).Reachable →
      ∀ start end_ literal c' id, c.connect start end_ literal = (c', .ok id) →
        ∃ l taken merged, c'.TypedAs id l taken merged := by
  refine ⟨fun sink source h => ?_, fun a b => ?_, fun {face c} hg start end_ literal c' id h => ?_⟩
  · have hagree := Interface.agree_of_admits h
    exact ⟨hagree.merge, hagree.symm.merge⟩
  · rw [← Interface.agree_iff_merge, ← Interface.agree_iff_merge]
    exact ⟨Interface.Agree.symm, Interface.Agree.symm⟩
  · obtain ⟨-, -, hc⟩ := Gate.sound_circuit_iff.mp hg.sound
    obtain ⟨e, he⟩ | ⟨e, he⟩ | ⟨l, hj, he⟩ :=
      Circuit.connect_cases hc.wired.shaped start end_ literal
    · cases h.symm.trans he
    · cases h.symm.trans he
    · cases h.symm.trans he
      exact ⟨l, hc.wired.typedAs_withLink hj⟩

def Circuit.pairAndRow : Circuit Gate :=
  (Circuit.empty .empty).edited [
    .add (.ofTransform "pair" ⟨.none none, .copies 2 (.bit none)⟩ "high" (Builtin.find? "high")),
    .add (.ofTransform "row" ⟨.rest none (.any none), .bit none⟩ "and" (Builtin.find? "and"))]

theorem Gate.reachable_pairAndRow :
    (Gate.circuit (.new "scratch" ⟨default, default⟩) .pairAndRow).Reachable := by
  refine .edited (.circuit "scratch" .empty) fun a ha => ?_
  obtain ⟨typeName, io, name, t, rfl⟩ :
      ∃ typeName io name t, a = Gate.ofTransform typeName io name t := by
    simp only [List.mem_cons, Edit.add.injEq, List.not_mem_nil, or_false] at ha
    obtain rfl | rfl := ha
    · exact ⟨_, _, _, _, rfl⟩
    · exact ⟨_, _, _, _, rfl⟩
  exact ⟨.transform _ _ _ _, (sound_ofTransform _ _ _ _).2⟩

/-- The row gate takes in the pair, which makes two bits of the row. -/
theorem linked_can_be_merged_row :
    (∃ m, (Interface.copies 2 (.bit none)).merge (.rest none (.any none)) = .ok m) ∧
    ∃ l taken merged, (Circuit.pairAndRow.connect ⟨.gate 0, []⟩ ⟨.gate 1, []⟩ none).1.TypedAs 0 l
      taken merged := by
  obtain ⟨hadmits, -, htyped⟩ := linked_can_be_merged
  refine ⟨(hadmits (.rest none (.any none)) (.copies 2 (.bit none)) rfl).2, ?_⟩
  exact htyped Gate.reachable_pairAndRow ⟨.gate 0, []⟩ ⟨.gate 1, []⟩ none _ 0 rfl

end TickCircuit
