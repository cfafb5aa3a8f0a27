import TickCircuit.Gate.Template
import TickCircuit.Proofs.Circuit.Link
/-!
What holds of each gate of a circuit. A property that does not look at the ports survives all work
on links (`Each.connect`, `Each.deleteLink`), and insertions into the circuit, whether or not they
are undone (`Each.insert`).
-/
namespace TickCircuit
namespace Entries
variable {κ α : Type}

def Each (P : α → Prop) (es : Entries κ α) : Prop := ∀ e ∈ es, P e.2

variable {P : α → Prop} {es : Entries κ α}

theorem Each.nil : Each P ([] : Entries κ α) := fun _ he => nomatch he

theorem Each.cons {e : κ × α} (he : P e.2) (h : es.Each P) : Each P (e :: es) := by
  intro e' hm
  obtain hm | hm := List.mem_cons.mp hm
  · rw [hm]
    exact he
  · exact h e' hm

theorem Each.tail {e : κ × α} (h : Each P (e :: es)) : es.Each P :=
  fun e' hm => h e' (List.mem_cons_of_mem _ hm)

theorem Each.map {f : α → α} (h : ∀ e ∈ es, P (f e.2)) :
    Each P (es.map fun (k, a) => (k, f a)) := by
  intro e he
  obtain ⟨e', he', rfl⟩ := List.mem_map.mp he
  exact h e' he'

variable [DecidableEq κ]

theorem Each.get? (h : es.Each P) {k : κ} {a : α} (ha : es.get? k = some a) : P a :=
  h (k, a) (mem_of_get? ha)

theorem Each.put (h : es.Each P) (k : κ) {a : α} (ha : P a) : (es.put k a).Each P := by
  induction es with
  | nil => exact .cons ha .nil
  | cons e es ih =>
    obtain ⟨j, b⟩ := e
    have hb : P b := h _ List.mem_cons_self
    rw [Entries.put]
    split
    · exact .cons ha h.tail
    · exact .cons hb (ih h.tail)

theorem Each.erase (h : es.Each P) (k : κ) : (es.erase k).Each P := by
  induction es with
  | nil => exact h
  | cons e es ih =>
    obtain ⟨j, b⟩ := e
    have hb : P b := h _ List.mem_cons_self
    rw [Entries.erase]
    split
    · exact h.tail
    · exact .cons hb (ih h.tail)

theorem Each.modify (h : es.Each P) (k : κ) {f : α → α} (hf : ∀ a, P a → P (f a)) :
    (es.modify k f).Each P := by
  induction es with
  | nil => exact h
  | cons e es ih =>
    obtain ⟨j, b⟩ := e
    have hb : P b := h _ List.mem_cons_self
    rw [Entries.modify]
    split
    · exact .cons (hf b hb) h.tail
    · exact .cons hb (ih h.tail)

end Entries

/-- What is done to a port of a gate does not matter to the property. -/
def Gate.PortBlind (P : Gate → Prop) : Prop := ∀ f d g, P g → P (g.mapPort f d)

namespace Circuit

def Each (P : Gate → Prop) (c : Circuit Gate) : Prop := Entries.Each P c.gates

variable {P : Gate → Prop} {c : Circuit Gate}

theorem each_empty (registry : Registry) : (empty registry).Each P := Entries.Each.nil

theorem Each.mapPort (hP : Gate.PortBlind P) (h : c.Each P) (f : Port → Port) (d : Direction)
    (n : Node) : (c.mapPort f d n).Each P := by
  cases n with
  | gate id =>
    rw [mapPort_gate]
    exact Entries.Each.modify h id (hP f d)
  | boundary => cases d <;> exact h
  | host => cases d <;> exact h

theorem exists_gate_mapPort (hP : Gate.PortBlind P) {id : GateId} {g : Gate}
    (hg : c.gate? id = some g) (hold : P g) (f : Port → Port) (d : Direction) (n : Node) :
    ∃ g', (c.mapPort f d n).gate? id = some g' ∧ P g' := by
  cases n with
  | gate j =>
    rw [mapPort_gate, modifyGate, gate?, Entries.get?_modify, ← gate?, hg]
    split
    · exact ⟨_, rfl, hP f d g hold⟩
    · exact ⟨_, rfl, hold⟩
  | boundary => cases d <;> exact ⟨g, hg, hold⟩
  | host => cases d <;> exact ⟨g, hg, hold⟩

theorem exists_gate_withLink (hP : Gate.PortBlind P) {id : GateId} {g : Gate}
    (hg : c.gate? id = some g) (hold : P g) (l : Link) :
    ∃ g', (c.withLink l).gate? id = some g' ∧ P g' := by
  have hreserved : c.reserved.gate? id = some g := hg
  obtain ⟨g₁, hg₁, hold₁⟩ := exists_gate_mapPort hP hreserved hold _ .input l.sink.node
  exact exists_gate_mapPort hP hg₁ hold₁ _ .output l.source.node

theorem Each.bindSink (hP : Gate.PortBlind P) (h : c.Each P) (id : LinkId) (data : Interface)
    (end_ : LinkEnd) : (c.bindSink id data end_).1.Each P := by
  unfold Circuit.bindSink
  split
  · exact h
  · exact h.mapPort hP _ .input end_.node

theorem Each.bindSource (hP : Gate.PortBlind P) (h : c.Each P) (id : LinkId) (n : Node)
    (path : Path) : (c.bindSource id n path).1.Each P := by
  unfold Circuit.bindSource
  split
  · exact h
  · exact h.mapPort hP _ .output n

theorem Each.connect (hP : Gate.PortBlind P) (h : c.Each P) (start end_ : LinkEnd)
    (literal : Option Value) : (c.connect start end_ literal).1.Each P := by
  unfold Circuit.connect
  split
  · exact h
  next leaf _ =>
    split
    · exact h
    · have hr : Each P { c with links := c.links.reserve } := h
      have hsink := hr.bindSink hP c.links.nextId leaf.interface end_
      dsimp only
      split
      next hb => rwa [hb] at hsink
      next path hb =>
        rw [hb] at hsink
        have hsource := hsink.bindSource hP c.links.nextId start.node leaf.path
        split
        next hb' =>
          rw [hb'] at hsource
          exact hsource.mapPort hP _ .input end_.node
        next hb' => rwa [hb'] at hsource

theorem Each.deleteLink (hP : Gate.PortBlind P) (h : c.Each P) (id : LinkId) :
    (c.deleteLink id).Each P := by
  unfold Circuit.deleteLink
  split
  · exact h
  next link _ =>
    have hr : Each P { c with links := c.links.erase id } := h
    exact (hr.mapPort hP _ .output link.source.node).mapPort hP _ .input link.sink.node

theorem Each.deleteLinks (hP : Gate.PortBlind P) (h : c.Each P) (ids : List LinkId) :
    (c.deleteLinks ids).Each P := by
  induction ids generalizing c with
  | nil => exact h
  | cons id ids ih => exact ih (h.deleteLink hP id)

theorem Each.removeGate (hP : Gate.PortBlind P) (h : c.Each P) (id : GateId) :
    (c.removeGate id).1.Each P := by
  unfold Circuit.removeGate
  split
  · exact h
  next g _ =>
    have hd := h.deleteLinks hP (g.input.allLinks ++ g.output.allLinks)
    exact Entries.Each.erase hd id

theorem Each.add (h : c.Each P) {g : Gate} (hg : P g) : (c.add g).Each P :=
  Entries.Each.put h c.nextGate hg

theorem Each.rollback (hP : Gate.PortBlind P) (h : c.Each P) (made : Insertion) :
    (c.rollback made).Each P := by
  have hfold : ∀ (es : Entries String GateId) (c : Circuit Gate), c.Each P →
      (es.foldl (fun c e => (c.removeGate e.2).1) c).Each P := by
    intro es
    induction es with
    | nil => exact fun c h => h
    | cons e es ih => exact fun c h => ih _ (h.removeGate hP e.2)
  exact hfold made.gates _ (h.deleteLinks hP made.links)

theorem Each.insertGates {make : String → Except Fault Gate}
    (hmake : ∀ name g p, make name = .ok g → P (g.moved p)) (h : c.Each P) (offset : Position)
    (made : Insertion) (entries : List GateEntry) :
    (c.insertGates make offset made entries).1.Each P := by
  induction entries generalizing c made with
  | nil => exact h
  | cons entry entries ih =>
    rw [Circuit.insertGates]
    cases hm : make entry.typeName with
    | error e => exact h
    | ok g => exact ih (h.add (hmake _ g _ hm)) _

theorem Each.insertLinks (hP : Gate.PortBlind P) (h : c.Each P) (made : Insertion)
    (specs : List LinkSpec) : (c.insertLinks made specs).1.Each P := by
  induction specs generalizing c made with
  | nil => exact h
  | cons spec specs ih =>
    rw [Circuit.insertLinks, insertLink]
    cases linkEnd made spec.source with
    | error e => exact h
    | ok start =>
      cases linkEnd made spec.sink with
      | error e => exact h
      | ok end_ =>
        have hk := h.connect hP start end_ spec.literal
        dsimp only
        rcases hc : c.connect start end_ spec.literal with ⟨c', e | id⟩
        · rwa [hc] at hk
        · rw [hc] at hk
          exact ih hk _

theorem Each.insertParts (hP : Gate.PortBlind P) {make : String → Except Fault Gate}
    (hmake : ∀ name g p, make name = .ok g → P (g.moved p)) (h : c.Each P) (d : Description)
    (offset : Position) (made : Insertion) : (c.insertParts make d offset made).1.Each P := by
  have hgates := h.insertGates hmake offset made d.gates
  rw [Circuit.insertParts]
  rcases hi : c.insertGates make offset made d.gates with ⟨c', made, e | ⟨⟩⟩
  · rwa [hi] at hgates
  · rw [hi] at hgates
    dsimp only
    cases d.specs with
    | error e => exact hgates
    | ok specs => exact hgates.insertLinks hP made specs

theorem Each.insert (hP : Gate.PortBlind P) {make : String → Except Fault Gate}
    (hmake : ∀ name g p, make name = .ok g → P (g.moved p)) (h : c.Each P) (d : Description)
    (offset : Position) : (c.insert make d offset).1.Each P := by
  have hparts := h.insertParts hP hmake d offset ⟨[], [], c.innerInput, c.innerOutput⟩
  rw [Circuit.insert]
  rcases hi : c.insertParts make d offset ⟨[], [], c.innerInput, c.innerOutput⟩ with
    ⟨c', made, e | ⟨⟩⟩
  · rw [hi] at hparts
    exact hparts.rollback hP made
  · rwa [hi] at hparts

end Circuit
end TickCircuit
