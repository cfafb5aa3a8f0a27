import TickCircuit.Proofs.Gate.Reachable
/-!
The ids of gates and links. Every circuit counts its ids up, so that an id is given out once, also
where what it stood for is taken away again. Main statement: over a whole run no id is given out
twice (`nodup_issuesOf`).
-/
namespace TickCircuit

/-- The ids that a circuit gives out between two moments, which its counters pass. -/
def Circuit.passed (c c' : Circuit Gate) : List Handle :=
  (List.range' c.nextGate (c'.nextGate - c.nextGate)).map .gate ++
    (List.range' c.links.nextId (c'.links.nextId - c.links.nextId)).map .link

namespace Gate

def at? : List GateId → Gate → Option Gate
  | [], g => some g
  | id :: path, .circuit _ c => c.gate? id >>= (·.at? path)
  | _ :: _, .function .. => none

/-- The ids that an operation gives out, each with the path of its circuit. -/
def issues (path : List GateId) (op : Operation) (g : Gate) : List (List GateId × Handle) :=
  match g.at? path, (g.perform path op).1.at? path with
  | some (.circuit _ c), some (.circuit _ c') => (c.passed c').map (path, ·)
  | _, _ => []

def issuesOf : List (List GateId × Operation) → Gate → List (List GateId × Handle)
  | [], _ => []
  | (path, op) :: steps, g => g.issues path op ++ issuesOf steps (g.perform path op).1

/-- The id will not be given out again by the circuit at the path, if there is still one. -/
def Spent : List GateId → Handle → Gate → Prop
  | _, _, .function .. => True
  | [], .gate id, .circuit _ c => id < c.nextGate
  | [], .link id, .circuit _ c => id < c.links.nextId
  | id :: path, h, .circuit _ c => id < c.nextGate ∧ ∀ g, c.gate? id = some g → g.Spent path h

def Ages (g g' : Gate) : Prop := ∀ path h, g.Spent path h → g'.Spent path h

theorem Ages.refl (g : Gate) : g.Ages g := fun _ _ h => h

theorem spent_mapFace (f : Face → Face) (path : List GateId) (h : Handle) (g : Gate) :
    (g.mapFace f).Spent path h ↔ g.Spent path h := by
  cases g <;> cases path <;> cases h <;> exact Iff.rfl

theorem ages_mapFace (f : Face → Face) (g : Gate) : g.Ages (g.mapFace f) :=
  fun path h => (spent_mapFace f path h g).mpr

end Gate

namespace Circuit
variable {c c' : Circuit Gate}

structure Ages (c c' : Circuit Gate) : Prop where
  nextGate : c.nextGate ≤ c'.nextGate
  nextId : c.links.nextId ≤ c'.links.nextId
  gate : ∀ {id g'}, id < c.nextGate → c'.gate? id = some g' → ∃ g, c.gate? id = some g ∧ g.Ages g'
  link : ∀ {id}, id < c.links.nextId → id ∈ c'.links.ids → id ∈ c.links.ids

theorem Ages.gates (h : c.Ages c') (face face' : Face) :
    (Gate.circuit face c).Ages (.circuit face' c') := by
  intro path k hk
  cases path with
  | nil =>
    cases k with
    | gate id => exact Nat.lt_of_lt_of_le hk h.nextGate
    | link id => exact Nat.lt_of_lt_of_le hk h.nextId
  | cons id path =>
    obtain ⟨hid, hk⟩ := hk
    refine ⟨Nat.lt_of_lt_of_le hid h.nextGate, fun g' hg' => ?_⟩
    obtain ⟨g, hg, hage⟩ := h.gate hid hg'
    exact hage path k (hk g hg)

theorem Ages.of_gates (hnext : c'.nextGate = c.nextGate) (hlinks : c'.links.blank = c.links.blank)
    (hgates : ∀ {id g'}, c'.gate? id = some g' → ∃ g, c.gate? id = some g ∧ g.Ages g') :
    c.Ages c' := by
  obtain ⟨hids, hid⟩ := LinkTable.of_blank hlinks
  exact {
    nextGate := Nat.le_of_eq hnext.symm
    nextId := Nat.le_of_eq hid.symm
    gate := fun _ hg => hgates hg
    link := fun {_} _ hm => hids ▸ hm }

theorem Ages.of_same_gates (hgates : c'.gates = c.gates) (hnext : c'.nextGate = c.nextGate)
    (hlinks : c'.links.blank = c.links.blank) : c.Ages c' := by
  refine .of_gates hnext hlinks fun {_ g} hg => ⟨g, ?_, .refl g⟩
  rwa [gate?, hgates] at hg

theorem Ages.refl (c : Circuit Gate) : c.Ages c := .of_same_gates rfl rfl rfl

theorem Refaced.ages (h : c.Refaced c') (hn : c.nextGate ≤ c'.nextGate)
    (hid : c.links.nextId ≤ c'.links.nextId)
    (hlink : ∀ {id}, id < c.links.nextId → id ∈ c'.links.ids → id ∈ c.links.ids) : c.Ages c' where
  nextGate := hn
  nextId := hid
  gate {_ _} _ hg' := by
    obtain ⟨g, f, hg, rfl⟩ := h.gate hg'
    exact ⟨g, hg, Gate.ages_mapFace f g⟩
  link := hlink

theorem Wired.ages_connect (h : c.Wired) (start end_ : LinkEnd) (literal : Option Value) :
    c.Ages (c.connect start end_ literal).1 := by
  have hr := h.refaced_connect start end_ literal
  obtain ⟨e, he⟩ | ⟨e, he⟩ | ⟨l, hj, he⟩ := connect_cases h.shaped start end_ literal
  · rw [he]
    exact .refl c
  · rw [he] at hr ⊢
    exact hr.ages (Nat.le_refl _) (Nat.le_succ _) fun _ h => h
  · rw [he] at hr ⊢
    refine hr.ages (Nat.le_of_eq (nextGate_withLink c l).symm) ?_ fun {id} hid hm => ?_
    · rw [h.links_withLink]
      exact Nat.le_succ _
    · rw [h.ids_withLink] at hm
      obtain hm | hm := List.mem_append.mp hm
      · exact hm
      · cases List.mem_singleton.mp hm
        exact absurd hid (Nat.lt_irrefl _)

theorem Extends.ages (h : c.Extends c') : c.Ages c' where
  nextGate := h.nextGate
  nextId := h.nextId
  gate {id g'} hid hg' := by
    obtain ⟨more, hm, hids⟩ := h.gates
    rw [gate?, hm, Entries.get?_append] at hg'
    obtain hg | ⟨-, hg⟩ := Option.or_eq_some_iff.mp hg'
    · exact ⟨g', hg, .refl g'⟩
    · exact absurd hid (Nat.not_lt_of_le (hids id (Entries.mem_keys_of_get? hg)))
  link {id} hid hm := by
    obtain ⟨more, he, hids⟩ := h.links
    rw [LinkTable.ids, he, Entries.keys_append, List.mem_append] at hm
    obtain hm | hm := hm
    · exact hm
    · exact absurd hid (Nat.not_lt_of_le (hids id hm))

theorem Enlarged.ages {more : List (GateId × Gate)} (h : c.Enlarged c' more) : c.Ages c' where
  nextGate := h.nextGate
  nextId := h.nextId
  gate {id g'} hid hg' := by
    rw [gate?, h.gates, Entries.get?_append] at hg'
    obtain hg | ⟨-, hg⟩ := Option.or_eq_some_iff.mp hg'
    · exact ⟨g', hg, .refl g'⟩
    · exact absurd hid (Nat.not_lt_of_le (h.ids id (Entries.mem_keys_of_get? hg)).1)
  link {id} _ hm := by
    rw [LinkTable.ids, h.links] at hm
    exact hm

theorem Ages.trans {c'' : Circuit Gate} (h : c.Ages c') (h' : c'.Ages c'') : c.Ages c'' where
  nextGate := Nat.le_trans h.nextGate h'.nextGate
  nextId := Nat.le_trans h.nextId h'.nextId
  gate hid hg'' := by
    obtain ⟨g', hg', hage'⟩ := h'.gate (Nat.lt_of_lt_of_le hid h.nextGate) hg''
    obtain ⟨g, hg, hage⟩ := h.gate hid hg'
    exact ⟨g, hg, fun path k hk => hage' path k (hage path k hk)⟩
  link hid hm := h.link hid (h'.link (Nat.lt_of_lt_of_le hid h.nextId) hm)

theorem Wired.ages_deleteLink (h : c.Wired) (id : LinkId) : c.Ages (c.deleteLink id) := by
  have hnext : c.links.nextId = (c.deleteLink id).links.nextId := by
    rw [links_deleteLink]
    rfl
  refine (h.refaced_deleteLink id).ages (Nat.le_of_eq (nextGate_deleteLink c id).symm)
    (Nat.le_of_eq hnext) fun {j} _ hj => ?_
  rw [links_deleteLink, LinkTable.ids, LinkTable.erase, Entries.keys_erase] at hj
  exact List.mem_of_mem_erase hj

theorem Wired.ages_deleteLinks (h : c.Wired) (ids : List LinkId) : c.Ages (c.deleteLinks ids) := by
  induction ids generalizing c with
  | nil => exact .refl c
  | cons id ids ih => exact (h.ages_deleteLink id).trans (ih (h.deleteLink id))

theorem Wired.ages_removeGate (h : c.Wired) (id : GateId) : c.Ages (c.removeGate id).1 := by
  cases hg : c.gate? id with
  | none =>
    simp only [Circuit.removeGate, hg]
    exact .refl c
  | some g =>
    rw [removeGate_eq hg]
    have hr := (h.deleteLinks (g.input.allLinks ++ g.output.allLinks)).refaced_withoutGate id
    exact (h.ages_deleteLinks _).trans
      (hr.ages (Nat.le_refl _) (Nat.le_refl _) fun _ hm => hm)

end Circuit

theorem Gate.update_circuit_ages {c : Circuit Gate} (hc : c.Sound) (face : Face) (t : LinkTable)
    (hchildren : ∀ id g, c.gate? id = some g → ∀ t, g.Ages (g.update t).1) :
    ∃ face' c', ((Gate.circuit face c).update t).1 = .circuit face' c' ∧ c.Ages c' := by
  have hstale := stale_pushed hc.wired.innerInput face t
  match hp : c.pushed face t with
  | (links, .error e) =>
    rw [hp] at hstale
    rw [update_circuit_of_error hp]
    exact ⟨_, _, rfl, .of_same_gates rfl rfl (LinkTable.blank_of_stale hstale)⟩
  | (links, .ok ()) =>
    rw [hp] at hstale
    rw [update_circuit_of_ok hp]
    refine ⟨_, _, rfl, .of_gates rfl (hc.blank_advanced hstale) fun {id g'} hg' => ?_⟩
    rw [hc.gate?_advanced] at hg'
    obtain ⟨g, hg, rfl⟩ := Option.map_eq_some_iff.mp hg'
    exact ⟨g, hg, hchildren id g hg links⟩

theorem Gate.Sound.ages_update {g : Gate} (h : g.Sound) (t : LinkTable) :
    g.Ages (g.update t).1 := by
  induction h generalizing t with
  | @function face name f shaped =>
    intro path k _
    cases path <;> trivial
  | @circuit face c shaped matched wired children ih =>
    have hc : c.Sound := ⟨wired, fun {id g} => children id g⟩
    obtain ⟨face', c', hu, hage⟩ := update_circuit_ages hc face t ih
    rw [hu]
    exact hage.gates face face'

theorem Gate.setBoundary_ages {input output : Interface} {face : Face} {c : Circuit Gate}
    {g : Gate} (h : (Gate.circuit face c).setBoundary input output = (g, .ok ())) :
    ∃ face' c', g = .circuit face' c' ∧ c.Ages c' ∧ c'.nextGate = c.nextGate := by
  obtain ⟨-, -, -, -, rfl⟩ := setBoundary_eq_ok.mp h
  exact ⟨_, _, rfl, .of_same_gates rfl rfl rfl, rfl⟩

theorem mem_range'_sub {first next n : Nat} :
    n ∈ List.range' first (next - first) ↔ first ≤ n ∧ n < next := by
  rw [List.mem_range'_1]
  omega

theorem Circuit.mem_passed_gate {c c' : Circuit Gate} {id : GateId} :
    .gate id ∈ c.passed c' ↔ c.nextGate ≤ id ∧ id < c'.nextGate := by
  simp only [passed, List.mem_append, List.mem_map, Handle.gate.injEq, exists_eq_right,
    reduceCtorEq, and_false, exists_false, or_false]
  exact mem_range'_sub

theorem Circuit.mem_passed_link {c c' : Circuit Gate} {id : LinkId} :
    .link id ∈ c.passed c' ↔ c.links.nextId ≤ id ∧ id < c'.links.nextId := by
  simp only [passed, List.mem_append, List.mem_map, Handle.link.injEq, exists_eq_right,
    reduceCtorEq, and_false, exists_false, false_or]
  exact mem_range'_sub

theorem nodup_numbers (first : GateId) (names : List String) :
    ((numbered first names).map fun (_, id) => Handle.gate id).Nodup := by
  have hkeys := nodup_numbered first names
  rw [Entries.keys, List.nodup_iff_pairwise_ne, List.pairwise_map] at hkeys
  rw [List.nodup_iff_pairwise_ne, List.pairwise_map]
  refine hkeys.imp_of_mem fun {a b} ha hb hne hid => hne ?_
  obtain ⟨i, hi, hai⟩ := of_get?_numbered (Entries.get?_of_mem (nodup_numbered first names) ha)
  obtain ⟨j, hj, hbj⟩ := of_get?_numbered (Entries.get?_of_mem (nodup_numbered first names) hb)
  have hab : a.2 = b.2 := Handle.gate.inj hid
  have hij : i = j := Nat.add_left_cancel (hai.symm.trans (hab.trans hbj))
  rw [hij, hj] at hi
  exact (Option.some.inj hi).symm

theorem Edit.ages {c : Circuit Gate} (hc : c.Sound) (e : Edit) :
    c.Ages (e.run c).1 ∧ (e.run c).2.Nodup ∧ ∀ h ∈ (e.run c).2, h ∈ c.passed (e.run c).1 := by
  have hnew : ∀ g : Gate, c.Ages (c.add g) := fun g => (hc.wired.enlarged_add g).ages
  have hgate : ∀ (g : Gate) (h : Handle), h ∈ [Handle.gate c.nextGate] →
      h ∈ c.passed (c.add g) := by
    intro g h hm
    cases List.mem_singleton.mp hm
    exact Circuit.mem_passed_gate.mpr ⟨Nat.le_refl _, Nat.lt_succ_self _⟩
  cases e with
  | create typeName =>
    rw [run, Circuit.create]
    cases Gate.ofTemplate c.registry typeName with
    | error e => exact ⟨.refl c, .nil, by simp⟩
    | ok g => exact ⟨hnew g, by simp, hgate g⟩
  | add g => exact ⟨hnew g, by simp [run], hgate g⟩
  | connect start end_ literal =>
    have hage := hc.wired.ages_connect start end_ literal
    rw [run]
    obtain ⟨e, hk⟩ | ⟨e, hk⟩ | ⟨l, hj, hk⟩ :=
      Circuit.connect_cases hc.wired.shaped start end_ literal
    · rw [hk] at hage ⊢
      exact ⟨hage, .nil, by simp⟩
    · rw [hk] at hage ⊢
      exact ⟨hage, .nil, by simp⟩
    · rw [hk] at hage ⊢
      refine ⟨hage, by simp, fun h hm => ?_⟩
      cases List.mem_singleton.mp hm
      refine Circuit.mem_passed_link.mpr ⟨Nat.le_refl _, ?_⟩
      rw [hc.wired.links_withLink]
      exact Nat.lt_succ_self _
  | deleteLink id | removeLink id =>
    exact ⟨hc.wired.ages_deleteLink id, .nil, by simp [run]⟩
  | removeGate id => exact ⟨hc.wired.ages_removeGate id, .nil, by simp [run]⟩
  | load registry => exact ⟨.of_same_gates rfl rfl rfl, .nil, by simp [run]⟩

/-- A circuit stays a circuit, and hands out only ids that its counters pass, none twice. -/
theorem Operation.ages_circuit (face : Face) {c : Circuit Gate} (hc : c.Sound) (op : Operation) :
    ∃ face' c', (op.run (.circuit face c)).1 = .circuit face' c' ∧ c.Ages c' ∧
      (op.run (.circuit face c)).2.Nodup ∧
      ∀ h ∈ (op.run (.circuit face c)).2, h ∈ c.passed c' := by
  cases op with
  | edit e => exact ⟨face, _, rfl, Edit.ages hc e⟩
  | insert d offset =>
    rw [run]
    obtain ⟨n, -, c', made, hr, ⟨g, hg, hi⟩ | ⟨e, hi⟩⟩ := Gate.insert_cases hc face d offset
    · obtain ⟨i, o, hb⟩ := Gate.resolve_eq_ok hg
      obtain ⟨face'', c'', rfl, hage, hnext⟩ := Gate.setBoundary_ages hb
      rw [hi]
      refine ⟨_, _, rfl, hr.ext.ages.trans hage, ?_, fun h hm => ?_⟩
      · rw [hr.gates]
        exact nodup_numbers c.nextGate _
      · obtain ⟨⟨name, id⟩, he, rfl⟩ := List.mem_map.mp hm
        rw [hr.gates] at he
        obtain ⟨i, hi, hid⟩ := of_get?_numbered (Entries.get?_of_mem (nodup_numbered _ _) he)
        have hlt := (List.getElem?_eq_some_iff.mp hi).1
        rw [Circuit.mem_passed_gate, hnext, hr.nextGate, hid]
        exact ⟨Nat.le_add_right _ _, Nat.add_lt_add_left hlt _⟩
    · obtain ⟨orphans, he, -⟩ := hr.rollback hc
      rw [hi]
      exact ⟨_, _, rfl, he.ages, .nil, by simp⟩
  | resolve =>
    rw [run]
    rcases hr : (Gate.circuit face c).resolve with ⟨g, e | ⟨⟩⟩
    · rw [Gate.resolve_refused hr]
      exact ⟨_, _, rfl, .refl c, .nil, by simp⟩
    · obtain ⟨i, o, hb⟩ := Gate.resolve_eq_ok hr
      obtain ⟨face', c', rfl, hage, -⟩ := Gate.setBoundary_ages hb
      exact ⟨_, _, rfl, hage, .nil, by simp⟩
  | update outer =>
    obtain ⟨face', c', hu, hage⟩ :=
      Gate.update_circuit_ages hc face outer fun id g hg => (hc.children hg).ages_update
    exact ⟨face', c', hu, hage, .nil, by simp [run]⟩
  | click => exact ⟨_, _, rfl, .refl c, .nil, by simp [run]⟩
  | rename name => exact ⟨_, _, rfl, .refl c, .nil, by simp [run]⟩
  | move p => exact ⟨_, _, rfl, .refl c, .nil, by simp [run]⟩

theorem Operation.ages {g : Gate} (h : g.Sound) (op : Operation) : g.Ages (op.run g).1 := by
  cases g with
  | function face name t =>
    intro path k _
    have hrun : ∃ face' name' t',
        (op.run (.function face name t)).1 = .function face' name' t' := by
      cases op with
      | click => cases t <;> exact ⟨_, _, _, rfl⟩
      | _ => exact ⟨_, _, _, rfl⟩
    obtain ⟨face', name', t', hrun⟩ := hrun
    rw [hrun]
    cases path <;> trivial
  | circuit face c =>
    obtain ⟨-, -, hc⟩ := Gate.sound_circuit_iff.mp h
    obtain ⟨face', c', hrun, hage, -⟩ := Operation.ages_circuit face hc op
    rw [hrun]
    exact hage.gates face face'

namespace Gate

theorem at?_cons {id : GateId} {path : List GateId} {g a : Gate} :
    g.at? (id :: path) = some a ↔
      ∃ face c child, g = .circuit face c ∧ c.gate? id = some child ∧ child.at? path = some a := by
  cases g with
  | function face name t => simp [at?]
  | circuit face c =>
    simp only [at?, Option.bind_eq_bind, Option.bind_eq_some_iff, Gate.circuit.injEq]
    constructor
    · intro h
      obtain ⟨child, hchild, ha⟩ := h
      exact ⟨face, c, child, ⟨rfl, rfl⟩, hchild, ha⟩
    · intro h
      obtain ⟨_, _, child, ⟨rfl, rfl⟩, hchild, ha⟩ := h
      exact ⟨child, hchild, ha⟩

theorem Sound.at? {path : List GateId} {g a : Gate} (h : g.Sound) (ha : g.at? path = some a) :
    a.Sound := by
  induction path generalizing g with
  | nil =>
    cases ha
    exact h
  | cons id path ih =>
    obtain ⟨face, c, child, rfl, hchild, ha⟩ := at?_cons.mp ha
    obtain ⟨-, -, hc⟩ := sound_circuit_iff.mp h
    exact ih (hc.children hchild) ha

theorem gate?_modifyGate {c : Circuit Gate} {id : GateId} {child : Gate}
    (hchild : c.gate? id = some child) (g : Gate) (j : GateId) :
    (c.modifyGate id fun _ => g).gate? j = if id = j then some g else c.gate? j := by
  rw [Circuit.gate?, Circuit.modifyGate, Entries.get?_modify]
  split
  next hj =>
    rw [Circuit.gate?] at hchild
    rw [← hj, hchild]
    rfl
  next => rfl

theorem editAt_of_at? {α : Type} {f : Gate → Gate × α} {path : List GateId} {g a : Gate}
    (ha : g.at? path = some a) (hage : a.Ages (f a).1) :
    ∃ g', g.editAt f path = some (g', (f a).2) ∧ g'.at? path = some (f a).1 ∧ g.Ages g' := by
  induction path generalizing g with
  | nil =>
    cases ha
    exact ⟨_, rfl, rfl, hage⟩
  | cons id path ih =>
    obtain ⟨face, c, child, rfl, hchild, ha⟩ := at?_cons.mp ha
    obtain ⟨child', he, hat, hchildren⟩ := ih ha
    have hget := gate?_modifyGate hchild child'
    refine ⟨.circuit face (c.modifyGate id fun _ => child'), ?_, ?_, ?_⟩
    · simp [editAt, hchild, he]
    · rw [at?_cons]
      exact ⟨face, _, child', rfl, by rw [hget, if_pos rfl], hat⟩
    · have hage : c.Ages (c.modifyGate id fun _ => child') := by
        refine .of_gates rfl rfl fun {j g'} hg' => ?_
        rw [hget] at hg'
        split at hg'
        next hj =>
          cases hg'
          exact ⟨child, hj ▸ hchild, hchildren⟩
        next => exact ⟨g', hg', .refl g'⟩
      exact hage.gates face face

theorem editAt_eq_none {α : Type} (f : Gate → Gate × α) {path : List GateId} {g : Gate}
    (h : g.at? path = none) : g.editAt f path = none := by
  induction path generalizing g with
  | nil => cases h
  | cons id path ih =>
    cases g with
    | function face name t => rfl
    | circuit face c =>
      cases hc : c.gate? id with
      | none => simp [editAt, hc]
      | some child => simp [editAt, hc, ih (by simpa [Gate.at?, hc] using h)]

theorem Sound.perform_of_at? {g a : Gate} (h : g.Sound) {path : List GateId}
    (ha : g.at? path = some a) (op : Operation) :
    (g.perform path op).2 = (op.run a).2 ∧
      (g.perform path op).1.at? path = some (op.run a).1 ∧ g.Ages (g.perform path op).1 := by
  obtain ⟨g', he, hat, hage⟩ := editAt_of_at? (f := op.run) ha (Operation.ages (h.at? ha) op)
  rw [Gate.perform, he]
  exact ⟨rfl, hat, hage⟩

theorem perform_of_at?_eq_none {g : Gate} {path : List GateId} (h : g.at? path = none)
    (op : Operation) : g.perform path op = (g, []) := by
  rw [perform, editAt_eq_none _ h]
  rfl

theorem Sound.ages_perform {g : Gate} (h : g.Sound) (path : List GateId) (op : Operation) :
    g.Ages (g.perform path op).1 := by
  cases ha : g.at? path with
  | none =>
    rw [perform_of_at?_eq_none ha]
    exact .refl g
  | some a => exact (h.perform_of_at? ha op).2.2

/-- What an operation gives out, at the circuit that it is for. -/
theorem Sound.issues_cases {g : Gate} (h : g.Sound) (path : List GateId) (op : Operation) :
    (∃ face c face' c', g.at? path = some (.circuit face c) ∧
      (g.perform path op).1.at? path = some (.circuit face' c') ∧ c.Ages c' ∧
      g.issues path op = (c.passed c').map (path, ·) ∧
      (g.perform path op).2.Nodup ∧ ∀ k ∈ (g.perform path op).2, k ∈ c.passed c') ∨
      (∀ face c, g.at? path ≠ some (.circuit face c)) ∧ g.issues path op = [] ∧
        (g.perform path op).2 = [] := by
  cases ha : g.at? path with
  | none => exact .inr ⟨by simp, by simp [issues, ha], by rw [perform_of_at?_eq_none ha]⟩
  | some a =>
    obtain ⟨hhand, hat, -⟩ := h.perform_of_at? ha op
    cases a with
    | function face name t =>
      refine .inr ⟨by simp, by simp [issues, ha], ?_⟩
      rw [hhand]
      cases op with
      | click => cases t <;> rfl
      | _ => rfl
    | circuit face c =>
      obtain ⟨-, -, hc⟩ := sound_circuit_iff.mp (h.at? ha)
      obtain ⟨face', c', hrun, hage, hn, hm⟩ := Operation.ages_circuit face hc op
      rw [hrun] at hat
      rw [hhand]
      exact .inl ⟨face, c, face', c', rfl, hat, hage, by simp [issues, ha, hat], hn, hm⟩

end Gate

theorem Circuit.nodup_passed (c c' : Circuit Gate) : (c.passed c').Nodup := by
  rw [passed, List.nodup_append]
  refine ⟨?_, ?_, ?_⟩
  · rw [List.nodup_iff_pairwise_ne, List.pairwise_map]
    exact (List.nodup_iff_pairwise_ne.mp List.nodup_range').imp
      fun hne hid => hne (Handle.gate.inj hid)
  · rw [List.nodup_iff_pairwise_ne, List.pairwise_map]
    exact (List.nodup_iff_pairwise_ne.mp List.nodup_range').imp
      fun hne hid => hne (Handle.link.inj hid)
  · intro h hg k hl hk
    obtain ⟨i, -, rfl⟩ := List.mem_map.mp hg
    obtain ⟨j, -, rfl⟩ := List.mem_map.mp hl
    cases hk

namespace Gate

theorem spent_of_at? {g : Gate} (h : g.Sound) {path : List GateId} {face : Face} {c : Circuit Gate}
    (ha : g.at? path = some (.circuit face c)) {k : Handle} :
    g.Spent path k ↔ (Gate.circuit face c).Spent [] k := by
  induction path generalizing g with
  | nil =>
    cases ha
    exact Iff.rfl
  | cons id path ih =>
    obtain ⟨face', c', child, rfl, hchild, ha⟩ := at?_cons.mp ha
    obtain ⟨-, -, hc⟩ := sound_circuit_iff.mp h
    rw [← ih (hc.children hchild) ha]
    constructor
    · intro hx
      obtain ⟨-, hs⟩ := hx
      exact hs child hchild
    · intro hs
      refine ⟨hc.wired.gates_lt id (Entries.mem_keys_of_get? hchild), fun g hg => ?_⟩
      rw [hchild] at hg
      exact Option.some.inj hg ▸ hs

/-- What is given out was not spent before, and is afterwards. -/
theorem Sound.spent_issues {g : Gate} (h : g.Sound) {path : List GateId} {op : Operation}
    (hs : (g.perform path op).1.Sound) {i : List GateId × Handle} (hi : i ∈ g.issues path op) :
    ¬g.Spent i.1 i.2 ∧ (g.perform path op).1.Spent i.1 i.2 := by
  obtain ⟨face, c, face', c', ha, hat, -, heq, -⟩ | ⟨-, heq, -⟩ := h.issues_cases path op
  · rw [heq] at hi
    obtain ⟨k, hk, rfl⟩ := List.mem_map.mp hi
    rw [spent_of_at? h ha, spent_of_at? hs hat]
    cases k with
    | gate id =>
      obtain ⟨hle, hlt⟩ := Circuit.mem_passed_gate.mp hk
      exact ⟨Nat.not_lt_of_le hle, hlt⟩
    | link id =>
      obtain ⟨hle, hlt⟩ := Circuit.mem_passed_link.mp hk
      exact ⟨Nat.not_lt_of_le hle, hlt⟩
  · rw [heq] at hi
    cases hi

theorem Sound.nodup_issuesOf {steps : List (List GateId × Operation)} {g : Gate} (h : g.Sound)
    (hadd : ∀ s ∈ steps, ∀ a, s.2 = .edit (.add a) → a.Sound ∧ a.Unlinked) :
    (g.issuesOf steps).Nodup ∧ ∀ i ∈ g.issuesOf steps, ¬g.Spent i.1 i.2 := by
  induction steps generalizing g with
  | nil => exact ⟨.nil, by simp [issuesOf]⟩
  | cons s steps ih =>
    obtain ⟨path, op⟩ := s
    have hs := h.perform path (hadd _ List.mem_cons_self)
    obtain ⟨hn, hnew⟩ := ih hs fun s hm => hadd s (List.mem_cons_of_mem _ hm)
    have hissue : ∀ i ∈ g.issues path op, ¬g.Spent i.1 i.2 ∧ (g.perform path op).1.Spent i.1 i.2 :=
      fun i => h.spent_issues hs
    rw [issuesOf]
    constructor
    · rw [List.nodup_append]
      refine ⟨?_, hn, fun i hi j hj hij => hnew j hj (hij ▸ (hissue i hi).2)⟩
      obtain ⟨_, c, _, c', -, -, -, heq, -⟩ | ⟨-, heq, -⟩ := h.issues_cases path op
      · rw [heq, List.nodup_iff_pairwise_ne, List.pairwise_map]
        exact (c.nodup_passed c').imp fun hne hk => hne (Prod.mk.inj hk).2
      · rw [heq]
        exact .nil
    · intro i hi
      obtain hi | hi := List.mem_append.mp hi
      · exact (hissue i hi).1
      · exact fun hspent => hnew i hi (h.ages_perform path op i.1 i.2 hspent)

end Gate
end TickCircuit
