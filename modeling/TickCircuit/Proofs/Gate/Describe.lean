import TickCircuit.Gate.Describe
import TickCircuit.Proofs.Description.LinkText
import TickCircuit.Proofs.Gate.Alike
/-!
What the description of a whole circuit says, and how it is read. Where gates are numbered from
zero on, a description names each by its number (`describeAll_eq`) and its links can be read back
(`specs_describeAll`).
-/
namespace TickCircuit
open Text

theorem eraseDups_of_nodup {α : Type} [DecidableEq α] {xs : List α} (h : xs.Nodup) :
    xs.eraseDups = xs := by
  induction xs with
  | nil => rfl
  | cons x xs ih =>
    obtain ⟨hx, hxs⟩ := List.nodup_cons.mp h
    have hfilter : xs.filter (fun y => !y == x) = xs := by
      refine List.filter_eq_self.mpr fun y hy => ?_
      have hne : y ≠ x := fun he => hx (he ▸ hy)
      simpa using hne
    rw [List.eraseDups_cons, hfilter, ih hxs]

/-- An end as a description names it, where gates are named by their ids. -/
def Endpoint.spec (e : Endpoint) : EndSpec :=
  match e.node with
  | .gate id => ⟨.gate (Circuit.numberText id), Path.spec e.path⟩
  | .boundary | .host => ⟨.outside, Path.spec e.path⟩

theorem GateRef.legible_number (n : Nat) : (GateRef.gate (Circuit.numberText n)).Legible := by
  rw [Legible, Circuit.numberText, String.toList_ofList]
  exact ⟨countText_ne_nil n, countText_ne rfl _, unmarked_countText n⟩

theorem Endpoint.legible_spec (e : Endpoint) (h : (Path.spec e.path).Fits) : e.spec.Legible := by
  obtain ⟨node, path⟩ := e
  cases node with
  | gate id => exact ⟨GateRef.legible_number id, h⟩
  | boundary => exact ⟨trivial, h⟩
  | host => exact ⟨trivial, h⟩

def Link.spec (l : Link) : LinkSpec := ⟨l.source.spec, l.sink.spec, l.last⟩

def GateEntry.numbered (n : Nat) (tag : String × Position) : GateEntry :=
  ⟨Circuit.numberText n, tag.1, some tag.2⟩

namespace Circuit
variable {c : Circuit Gate}

theorem numberText_injective {m n : Nat} (h : numberText m = numberText n) : m = n :=
  countText_injective (String.ofList_injective h)

theorem selected_gateIds (h : c.gateIds.Nodup) : c.selected c.gateIds = c.gateIds := by
  have hfilter : c.gateIds.filter (c.hasGate ·) = c.gateIds :=
    List.filter_eq_self.mpr fun _ hid => Entries.has_eq_true_iff.mpr hid
  rw [selected, hfilter, eraseDups_of_nodup h]

theorem idxOf?_range {n id : Nat} (h : id < n) : (List.range n).idxOf? id = some id := by
  refine List.idxOf?_eq_some_iff.mpr ⟨by simpa using h, by simp, fun j hj => ?_⟩
  simpa using Nat.ne_of_lt hj

theorem Wired.node_endAt (h : c.Wired) {id : LinkId} {l : Link} (hl : c.links.get? id = some l)
    (d : Direction) :
    (l.endAt d).node = .boundary ∨ ∃ gid ∈ c.gateIds, (l.endAt d).node = .gate gid := by
  have hend : c.end? d id = some (l.endAt d) := by
    rw [end?, hl]
    rfl
  exact (c.port?_isSome d (l.endAt d).node).mp (h.ends hend)

theorem Wired.endSpec? (h : c.Wired) {n : Nat} (hids : c.gateIds = List.range n) {id : LinkId}
    {l : Link} (hl : c.links.get? id = some l) (d : Direction) :
    Circuit.endSpec? c.gateIds true (l.endAt d) = some (l.endAt d).spec := by
  obtain hn | ⟨gid, hgid, hn⟩ := h.node_endAt hl d
  · simp [Circuit.endSpec?, Endpoint.spec, hn]
  · rw [hids] at hgid ⊢
    simp [Circuit.endSpec?, Endpoint.spec, hn, idxOf?_range (List.mem_range.mp hgid)]

theorem describeAll_eq (h : c.Wired) {n : Nat} (hids : c.gateIds = List.range n) :
    c.describeAll = ⟨c.tags.zipIdx.map fun e => .numbered e.2 e.1.2,
      c.links.entries.map fun e => String.ofList e.2.spec.text⟩ := by
  rw [describeAll, describe, selected_gateIds h.gates_nodup]
  have hgates : (c.gateIds.zipIdx.filterMap fun e => c.entryOf? e.1 e.2) =
      c.tags.zipIdx.map fun e => GateEntry.numbered e.2 e.1.2 := by
    rw [gateIds, Entries.keys, tags, List.zipIdx_map, List.zipIdx_map, List.filterMap_map,
      List.map_map, ← List.filterMap_eq_map']
    refine List.filterMap_congr fun e he => ?_
    have hg : c.gate? e.1.1 = some e.1.2 :=
      Entries.get?_of_mem h.gates_nodup (List.fst_mem_of_mem_zipIdx he)
    simp [entryOf?, hg, GateEntry.numbered, Gate.tag]
  have hlinks : (c.links.entries.filterMap fun e => linkText? c.gateIds true e.2) =
      c.links.entries.map fun e => String.ofList e.2.spec.text := by
    rw [← List.filterMap_eq_map']
    refine List.filterMap_congr fun e he => ?_
    have hl := Entries.get?_of_mem h.links_nodup he
    have hsource := h.endSpec? hids hl .output
    have hsink := h.endSpec? hids hl .input
    simp only [Link.endAt] at hsource hsink
    simp [linkText?, hsource, hsink, Link.spec]
  rw [hgates, hlinks]

theorem ids_describeAll (h : c.Wired) {n : Nat} (hids : c.gateIds = List.range n) :
    c.describeAll.gates.map (·.id) = (List.range n).map numberText := by
  have hlen : c.tags.length = n := by
    have hl := congrArg List.length hids
    rwa [← keys_tags, Entries.keys, List.length_map, List.length_range] at hl
  have hsnd := congrArg (List.map numberText) (List.zipIdx_map_snd 0 c.tags)
  rw [List.map_map, hlen, ← List.range_eq_range'] at hsnd
  rw [describeAll_eq h hids, List.map_map]
  exact hsnd

theorem specs_describeAll (h : c.Wired) {n : Nat} (hids : c.gateIds = List.range n)
    (hpaths : ∀ id l, c.links.get? id = some l → ∀ d, (Path.spec (l.endAt d).path).Fits)
    (hvalues : ∀ id l v, c.links.get? id = some l → l.last = some v →
      Value.parse v.print = .ok v) :
    c.describeAll.specs = .ok (c.links.entries.map fun e => e.2.spec) := by
  have htexts : (c.links.entries.map fun e => String.ofList e.2.spec.text) =
      (c.links.entries.map fun e => e.2.spec).map fun s => String.ofList s.text := by
    rw [List.map_map]
    rfl
  rw [describeAll_eq h hids, Description.specs, htexts]
  refine mapM_map_eq_ok fun s hs => ?_
  obtain ⟨⟨id, l⟩, he, rfl⟩ := List.mem_map.mp hs
  have hl := Entries.get?_of_mem h.links_nodup he
  have hsource := l.source.legible_spec (hpaths id l hl .output)
  have hsink := l.sink.legible_spec (hpaths id l hl .input)
  rw [String.toList_ofList]
  exact LinkSpec.parse_text hsource hsink fun v hv => hvalues id l v hl hv

end Circuit
end TickCircuit
