import TickCircuit.Gate.Insert
import TickCircuit.Proofs.Gate.Extension
/-!
Insertions and how they are undone. What a failed one leaves behind are the gates whose id in the
description was given again to a later gate; all else is as it was (`Records.rollback`).
-/
namespace TickCircuit

/-- The numbers of gates that are named in this order; of two of one name the later one counts. -/
def numbered (first : GateId) (names : List String) : Entries String GateId :=
  Entries.putAll [] (names.zipIdx first)

theorem numbered_append (first : GateId) (names : List String) (name : String) :
    numbered first (names ++ [name]) = (numbered first names).put name (first + names.length) := by
  simp [numbered, Entries.putAll, List.zipIdx_append, List.foldl_append]

theorem nodup_numbered (first : GateId) (names : List String) :
    (numbered first names).keys.Nodup :=
  Entries.nodup_keys_putAll (by simp [Entries.keys]) _

theorem get?_numbered_cons (first : GateId) (name : String) (names : List String) (k : String) :
    (numbered first (name :: names)).get? k =
      ((numbered (first + 1) names).get? k).or (if name = k then some first else none) := by
  rw [numbered, numbered, List.zipIdx_cons, Entries.get?_putAll, Entries.get?_putAll,
    List.reverse_cons, Entries.get?_append]
  simp [Entries.get?]

theorem of_get?_numbered {first : GateId} {names : List String} {k : String} {n : GateId}
    (h : (numbered first names).get? k = some n) : ∃ i, names[i]? = some k ∧ n = first + i := by
  induction names generalizing first with
  | nil => simp [numbered, Entries.putAll, Entries.get?] at h
  | cons name names ih =>
    rw [get?_numbered_cons] at h
    obtain h | ⟨-, h⟩ := Option.or_eq_some_iff.mp h
    · obtain ⟨i, hi, rfl⟩ := ih h
      exact ⟨i + 1, hi, Nat.add_right_comm first 1 i⟩
    · split at h
      next hk =>
        cases h
        exact ⟨0, congrArg some hk, rfl⟩
      next => cases h

theorem le_of_get?_numbered {first : GateId} {names : List String} {k : String} {n : GateId}
    (h : (numbered first names).get? k = some n) : first ≤ n := by
  obtain ⟨i, -, rfl⟩ := of_get?_numbered h
  exact Nat.le_add_right first i

theorem get?_numbered_eq_none {first : GateId} {names : List String} {k : String} :
    (numbered first names).get? k = none ↔ k ∉ names := by
  induction names generalizing first with
  | nil => simp [numbered, Entries.putAll, Entries.get?]
  | cons name names ih =>
    rw [get?_numbered_cons, Option.or_eq_none_iff, ih]
    by_cases hk : name = k <;> simp [hk, eq_comm (a := k)]

theorem mem_numbered {first : GateId} {names : List String} {i : Nat} :
    (∃ k, (numbered first names).get? k = some (first + i)) ↔
      ∃ name, names[i]? = some name ∧ name ∉ names.drop (i + 1) := by
  induction names generalizing first i with
  | nil => simp [numbered, Entries.putAll, Entries.get?]
  | cons name names ih =>
    cases i with
    | zero =>
      simp only [Nat.add_zero, List.getElem?_cons_zero, Option.some.injEq, exists_eq_left',
        List.drop_succ_cons, List.drop_zero]
      constructor
      · intro hx
        obtain ⟨k, hk⟩ := hx
        rw [get?_numbered_cons] at hk
        obtain hk | ⟨hn, hk⟩ := Option.or_eq_some_iff.mp hk
        · exact absurd (le_of_get?_numbered hk) (Nat.not_succ_le_self _)
        · split at hk
          next hname => exact hname ▸ get?_numbered_eq_none.mp hn
          next => cases hk
      · intro h
        refine ⟨name, ?_⟩
        rw [get?_numbered_cons, get?_numbered_eq_none.mpr h]
        simp
    | succ i =>
      have hrest := @ih (first + 1) i
      rw [List.getElem?_cons_succ, List.drop_succ_cons, ← hrest]
      simp only [get?_numbered_cons, Option.or_eq_some_iff]
      have hi : first + 1 + i = first + (i + 1) := Nat.add_right_comm first 1 i
      constructor
      · intro hx
        obtain ⟨k, hk | ⟨-, hk⟩⟩ := hx
        · exact ⟨k, by rw [hi, hk]⟩
        · split at hk
          · simp at hk
          · cases hk
      · intro hx
        obtain ⟨k, hk⟩ := hx
        exact ⟨k, .inl (by rw [← hi, hk])⟩

theorem Gate.port_moved (p : Position) (g : Gate) (d : Direction) :
    (g.moved p).port d = g.port d := by
  cases g <;> cases d <;> rfl

theorem Gate.Sound.moved {g : Gate} (h : g.Sound) (p : Position) : (g.moved p).Sound :=
  h.of_same_ports (g.port_moved p)

theorem Gate.Unlinked.moved {g : Gate} (h : g.Unlinked) (p : Position) : (g.moved p).Unlinked := by
  intro d path
  rw [Gate.port_moved]
  exact h d path

def MakesSound (make : String → Except Fault Gate) : Prop :=
  ∀ name g, make name = .ok g → g.Sound ∧ g.Unlinked

/-- What an insertion into `c` has come to, where its gates are named `names` in this order. -/
structure Insertion.Records (c : Circuit Gate) (names : List String) (c' : Circuit Gate)
    (made : Insertion) : Prop where
  ext : c.Extends c'
  gateIds : c'.gateIds = c.gateIds ++ List.range' c.nextGate names.length
  nextGate : c'.nextGate = c.nextGate + names.length
  linkIds : c'.links.ids = c.links.ids ++ made.links
  gates : made.gates = numbered c.nextGate names
  innerInput : made.innerInput = c.innerInput
  innerOutput : made.innerOutput = c.innerOutput

namespace Insertion
variable {c c' : Circuit Gate} {made : Insertion} {names : List String}

theorem Records.start (h : c.Sound) : Records c [] c ⟨[], [], c.innerInput, c.innerOutput⟩ where
  ext := .refl h
  gateIds := by simp
  nextGate := rfl
  linkIds := by simp
  gates := rfl
  innerInput := rfl
  innerOutput := rfl

theorem Records.add (h : Records c names c' made) {g : Gate} (hg : g.Sound) (hfree : g.Unlinked)
    (name : String) : Records c (names ++ [name]) (c'.add g)
      { made with gates := made.gates.put name c'.nextGate } where
  ext := h.ext.add hg hfree
  gateIds := by
    have hids := h.gateIds
    rw [Circuit.gateIds] at hids
    rw [Circuit.gateIds, h.ext.sound.wired.gates_add, Entries.keys_append, hids, List.append_assoc,
      List.length_append, List.length_singleton, List.range'_concat, h.nextGate]
    simp [Entries.keys]
  nextGate := by
    rw [List.length_append]
    exact congrArg (· + 1) h.nextGate
  linkIds := h.linkIds
  gates := by rw [numbered_append, ← h.gates, ← h.nextGate]
  innerInput := h.innerInput
  innerOutput := h.innerOutput

/-- Gates are made up to the first one that cannot be made. -/
theorem Records.insertGates {make : String → Except Fault Gate} (hmake : MakesSound make)
    (offset : Position) (h : Records c names c' made) (entries : List GateEntry) :
    ∃ n ≤ entries.length,
      Records c (names ++ (entries.take n).map (·.id)) (c'.insertGates make offset made entries).1
        (c'.insertGates make offset made entries).2.1 := by
  induction entries generalizing c' made names with
  | nil => exact ⟨0, Nat.le_refl _, by simpa [Circuit.insertGates] using h⟩
  | cons entry entries ih =>
    rw [Circuit.insertGates]
    cases hm : make entry.typeName with
    | error e => exact ⟨0, Nat.zero_le _, by simpa using h⟩
    | ok g =>
      obtain ⟨hg, hfree⟩ := hmake _ g hm
      dsimp only
      have hadd := h.add (hg.moved ((entry.position.getD .zero).add offset))
        (hfree.moved _) entry.id
      obtain ⟨n, hn, hr⟩ := ih hadd
      exact ⟨n + 1, Nat.succ_le_succ hn, by simpa using hr⟩

theorem Records.node_linkEnd (h : Records c names c' made) {e : EndSpec} {end_ : LinkEnd}
    (he : Circuit.linkEnd made e = .ok end_) : end_.node.From c.nextGate := by
  intro id hid
  unfold Circuit.linkEnd at he
  split at he
  · cases he
    cases hid
  · next name _ =>
    cases hn : made.gates.get? name with
    | none => simp [hn] at he
    | some g =>
      rw [hn] at he
      cases he
      cases hid
      rw [h.gates] at hn
      exact le_of_get?_numbered hn

theorem Records.connect (h : Records c names c' made) (hc : c.Wired) {start end_ : LinkEnd}
    (hs : start.node.From c.nextGate) (he : end_.node.From c.nextGate) (literal : Option Value) :
    match c'.connect start end_ literal with
    | (c'', .error _) => Records c names c'' made
    | (c'', .ok id) => Records c names c'' { made with links := made.links ++ [id] } := by
  have hext := h.ext.connect hc hs he literal
  have hwired := h.ext.sound.wired
  obtain ⟨e, hk⟩ | ⟨e, hk⟩ | ⟨l, hj, hk⟩ := Circuit.connect_cases hwired.shaped start end_ literal
  · rw [hk]
    exact h
  · rw [hk] at hext ⊢
    exact ⟨hext, h.gateIds, h.nextGate, h.linkIds, h.gates, h.innerInput, h.innerOutput⟩
  · rw [hk] at hext ⊢
    refine ⟨hext, ?_, ?_, ?_, h.gates, h.innerInput, h.innerOutput⟩
    · rw [Circuit.gateIds_withLink]
      exact h.gateIds
    · rw [Circuit.nextGate_withLink]
      exact h.nextGate
    · rw [hwired.ids_withLink, h.linkIds, List.append_assoc]

theorem Records.insertLinks (h : Records c names c' made) (hc : c.Wired) (specs : List LinkSpec) :
    Records c names (c'.insertLinks made specs).1 (c'.insertLinks made specs).2.1 := by
  induction specs generalizing c' made with
  | nil => exact h
  | cons spec specs ih =>
    rw [Circuit.insertLinks, Circuit.insertLink]
    cases hs : Circuit.linkEnd made spec.source with
    | error e => exact h
    | ok start =>
      cases he : Circuit.linkEnd made spec.sink with
      | error e => exact h
      | ok end_ =>
        have hconnect := h.connect hc (h.node_linkEnd hs) (h.node_linkEnd he) spec.literal
        dsimp only
        match hk : c'.connect start end_ spec.literal with
        | (c'', .error e) =>
          rw [hk] at hconnect
          exact hconnect
        | (c'', .ok id) =>
          rw [hk] at hconnect
          exact ih hconnect

theorem insertParts_records {make : String → Except Fault Gate} (hmake : MakesSound make)
    (hc : c.Sound) (d : Description) (offset : Position) :
    let made := ⟨[], [], c.innerInput, c.innerOutput⟩
    ∃ n ≤ d.gates.length, Records c ((d.gates.take n).map (·.id))
      (c.insertParts make d offset made).1 (c.insertParts make d offset made).2.1 := by
  obtain ⟨n, hn, h⟩ := (Records.start hc).insertGates hmake offset d.gates
  refine ⟨n, hn, ?_⟩
  rw [Circuit.insertParts]
  match hg : c.insertGates make offset ⟨[], [], c.innerInput, c.innerOutput⟩ d.gates with
  | (c', made, .error e) => simpa [hg] using h
  | (c', made, .ok ()) =>
    rw [hg] at h
    dsimp only
    cases d.specs with
    | error e => exact h
    | ok specs => exact h.insertLinks hc.wired specs

end Insertion

namespace Circuit
variable {c c' : Circuit Gate}

theorem gateIds_deleteLinks (c : Circuit Gate) (ids : List LinkId) :
    (c.deleteLinks ids).gateIds = c.gateIds := by
  induction ids generalizing c with
  | nil => rfl
  | cons id ids ih => exact (ih (c.deleteLink id)).trans (gateIds_deleteLink c id)

theorem nextGate_deleteLinks (c : Circuit Gate) (ids : List LinkId) :
    (c.deleteLinks ids).nextGate = c.nextGate := by
  induction ids generalizing c with
  | nil => rfl
  | cons id ids ih => exact (ih (c.deleteLink id)).trans (nextGate_deleteLink c id)

theorem removeGate_of_unlinked {id : GateId} (h : ∀ g, c.gate? id = some g → g.Unlinked) :
    (c.removeGate id).1 = c.withoutGate id := by
  cases hg : c.gate? id with
  | none =>
    have hid : id ∉ Entries.keys c.gates := Entries.get?_eq_none_iff.mp hg
    simp only [removeGate, hg, withoutGate, Entries.erase_of_not_mem hid]
  | some g =>
    have hi : g.input.allLinks = [] := Port.allLinks_eq_nil (h g hg .input)
    have ho : g.output.allLinks = [] := Port.allLinks_eq_nil (h g hg .output)
    rw [removeGate_eq hg, hi, ho]
    rfl

theorem foldl_removeGate {es : Entries String GateId} (hn : c.gateIds.Nodup)
    (h : ∀ e ∈ es, ∀ g, c.gate? e.2 = some g → g.Unlinked) :
    es.foldl (fun c (_, id) => (c.removeGate id).1) c =
      { c with gates := c.gates.filter fun e => e.1 ∉ es.map (·.2) } := by
  induction es generalizing c with
  | nil =>
    have hall : c.gates.filter (fun e => e.1 ∉ ([] : List GateId)) = c.gates :=
      List.filter_eq_self.mpr (by simp)
    simp only [List.foldl_nil, List.map_nil, hall]
  | cons e es ih =>
    obtain ⟨name, id⟩ := e
    have hn' : (c.withoutGate id).gateIds.Nodup := by
      rw [gateIds, withoutGate, Entries.keys_erase]
      exact hn.erase id
    have hrest : ∀ e ∈ es, ∀ g, (c.withoutGate id).gate? e.2 = some g → g.Unlinked := by
      intro e he g hg
      rw [gate?, withoutGate, Entries.get?_erase hn] at hg
      split at hg
      · cases hg
      · exact h e (List.mem_cons_of_mem _ he) g hg
    rw [List.foldl_cons]
    dsimp only
    rw [removeGate_of_unlinked (h _ List.mem_cons_self), ih hn' hrest]
    simp only [withoutGate, Entries.erase_eq_filter hn, List.filter_filter]
    congr 2
    funext e
    by_cases he : e.1 = id <;> simp [he]

end Circuit

theorem foldl_erase_append {ids old : List LinkId} (h : ∀ id ∈ ids, id ∉ old) :
    ids.foldl List.erase (old ++ ids) = old := by
  induction ids with
  | nil => simp
  | cons id ids ih =>
    rw [List.foldl_cons, List.erase_append_right _ (h id List.mem_cons_self), List.erase_cons_head]
    exact ih fun j hj => h j (List.mem_cons_of_mem _ hj)

namespace Insertion
variable {c c' : Circuit Gate} {made : Insertion} {names : List String}

theorem Records.deleteLinks (h : Records c names c' made) (hc : c.Wired) :
    c.Extends (c'.deleteLinks made.links) ∧
      (c'.deleteLinks made.links).links.entries = c.links.entries := by
  have hnew : ∀ id ∈ made.links, c.links.nextId ≤ id := by
    obtain ⟨more, hm, hids⟩ := h.ext.links
    have hlinks := h.linkIds
    rw [LinkTable.ids, hm, Entries.keys_append] at hlinks
    have hkeys : Entries.keys more = made.links := List.append_cancel_left hlinks
    rw [← hkeys]
    exact hids
  have hext := h.ext.deleteLinks hc hnew
  refine ⟨hext, ?_⟩
  have hids : (c'.deleteLinks made.links).links.ids = c.links.ids := by
    rw [Circuit.links_deleteLinks, h.linkIds]
    exact foldl_erase_append fun id hid => hc.link_not_mem (hnew id hid)
  obtain ⟨more, hm, -⟩ := hext.links
  rw [LinkTable.ids, hm, Entries.keys_append] at hids
  have hnil : more = [] := by simpa [LinkTable.ids, Entries.keys] using hids
  rw [hm, hnil, List.append_nil]

theorem mem_numbers {first : GateId} {names : List String} {id : GateId} :
    id ∈ (numbered first names).map (·.2) ↔ ∃ k, (numbered first names).get? k = some id := by
  constructor
  · intro h
    obtain ⟨e, he, rfl⟩ := List.mem_map.mp h
    exact ⟨e.1, Entries.get?_of_mem (nodup_numbered first names) he⟩
  · intro h
    obtain ⟨k, hk⟩ := h
    exact List.mem_map.mpr ⟨_, Entries.mem_of_get? hk, rfl⟩

theorem not_mem_numbers {first : GateId} {names : List String} {i : Nat} :
    i < names.length ∧ first + i ∉ (numbered first names).map (·.2) ↔
      ∃ name, names[i]? = some name ∧ name ∈ names.drop (i + 1) := by
  rw [mem_numbers, mem_numbered]
  constructor
  · intro h
    obtain ⟨hi, hn⟩ := h
    refine ⟨names[i], List.getElem?_eq_getElem hi, ?_⟩
    exact Decidable.byContradiction fun hd => hn ⟨_, List.getElem?_eq_getElem hi, hd⟩
  · intro h
    obtain ⟨name, hname, hd⟩ := h
    refine ⟨(List.getElem?_eq_some_iff.mp hname).1, fun hkept => ?_⟩
    obtain ⟨name', hname', hd'⟩ := hkept
    rw [hname, Option.some.injEq] at hname'
    exact hd' (hname' ▸ hd)

/-- What is left of an insertion that is undone: the gates whose name a later one took over. -/
theorem Records.rollback (h : Records c names c' made) (hc : c.Sound) :
    ∃ orphans, c.Enlarged (c'.rollback made) orphans ∧
      (∀ e ∈ orphans, e.2.Sound ∧ e.2.Unlinked) ∧
      (c'.rollback made).nextGate = c.nextGate + names.length ∧
      ∀ i, c.nextGate + i ∈ Entries.keys orphans ↔
        ∃ name, names[i]? = some name ∧ name ∈ names.drop (i + 1) := by
  obtain ⟨hext, hlinks⟩ := h.deleteLinks hc.wired
  have hids := Circuit.gateIds_deleteLinks c' made.links
  have hnext := Circuit.nextGate_deleteLinks c' made.links
  rw [h.gateIds] at hids
  rw [h.nextGate] at hnext
  have hroll : c'.rollback made = { made.gates.foldl (fun c (_, id) => (c.removeGate id).1)
      (c'.deleteLinks made.links) with
        innerInput := made.innerInput, innerOutput := made.innerOutput } := rfl
  rw [hroll, h.innerInput, h.innerOutput, h.gates]
  generalize c'.deleteLinks made.links = c₁ at hext hlinks hids hnext
  have hnew : ∀ id ∈ (numbered c.nextGate names).map (·.2), c.nextGate ≤ id := by
    intro id hid
    obtain ⟨k, hk⟩ := mem_numbers.mp hid
    exact le_of_get?_numbered hk
  rw [Circuit.foldl_removeGate hext.sound.wired.gates_nodup fun e he g hg =>
    hext.unlinked hc.wired hlinks (hnew _ (List.mem_map.mpr ⟨e, he, rfl⟩)) hg]
  obtain ⟨orphans, he, hfree, hkeys⟩ := hext.withoutNew hc.wired hlinks hids hnext hnew
  refine ⟨orphans, he, hfree, hnext, fun i => ?_⟩
  rw [hkeys, List.mem_filter, List.mem_range'_1, Nat.add_lt_add_iff_left, decide_eq_true_eq,
    and_iff_right (Nat.le_add_right c.nextGate i)]
  exact not_mem_numbers

end Insertion

theorem Circuit.insert_cases {make : String → Except Fault Gate} (hmake : MakesSound make)
    {c : Circuit Gate} (hc : c.Sound) (d : Description) (offset : Position) :
    ∃ n ≤ d.gates.length, ∃ c' made,
      Insertion.Records c ((d.gates.take n).map (·.id)) c' made ∧
        (c.insert make d offset = (c', .ok made) ∨
          ∃ e, c.insert make d offset = (c'.rollback made, .error e)) := by
  obtain ⟨n, hn, h⟩ := Insertion.insertParts_records hmake hc d offset
  refine ⟨n, hn, _, _, h, ?_⟩
  unfold insert
  match c.insertParts make d offset ⟨[], [], c.innerInput, c.innerOutput⟩ with
  | (c', made, .ok ()) => exact .inl rfl
  | (c', made, .error e) => exact .inr ⟨e, rfl⟩

theorem Circuit.records_of_insert {make : String → Except Fault Gate} (hmake : MakesSound make)
    {c c' : Circuit Gate} (hc : c.Sound) {d : Description} {offset : Position} {made : Insertion}
    (h : c.insert make d offset = (c', .ok made)) :
    ∃ n ≤ d.gates.length, Insertion.Records c ((d.gates.take n).map (·.id)) c' made := by
  obtain ⟨n, hn, c₁, made₁, hr, hi | ⟨e, hi⟩⟩ := insert_cases hmake hc d offset
  · cases h.symm.trans hi
    exact ⟨n, hn, hr⟩
  · cases h.symm.trans hi

end TickCircuit
