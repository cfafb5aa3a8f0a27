import TickCircuit.Proofs.Port.Mirror
import TickCircuit.Proofs.Port.Signal
/-!
What a port reads. A value fits the port, a fault comes from a link that carries what does not fit
at its place, and where no link carries anything the value is the tree of zeros that the sub-ports
make up, if there is one (`read_sound_and_complete`).
-/
namespace TickCircuit

/-- There is neither `any` nor `none` in the interface, at any depth. -/
inductive Interface.Grounded : Interface → Prop where
  | bit (l : Option String) : Grounded (.bit l)
  | rest (l : Option String) {e : Interface} (element : Grounded e) : Grounded (.rest l e)
  | collection (l : Option String) {cs : List Interface} (children : ∀ c ∈ cs, Grounded c) :
    Grounded (.collection l cs)

theorem Interface.Grounded.childAt {i c : Interface} (h : i.Grounded) {path : Path}
    (hc : i.childAt? path = some c) : c.Grounded := by
  induction path generalizing i with
  | nil =>
    cases hc
    exact h
  | cons k path ih =>
    obtain ⟨j, hj, hc⟩ := Option.bind_eq_some_iff.mp hc
    refine ih ?_ hc
    cases h with
    | bit l => cases hj
    | rest l element =>
      cases hj
      exact element
    | collection l children => exact children j (List.mem_of_getElem? hj)

namespace Port

/-- Whether a port can have no value but that of a link: its type is `none`, or `any` and it has no
sub-ports. -/
def isVoid (p : Port) : Bool := p.interface.isNone || p.interface.isAny && p.subs.isEmpty

/-- The port or a sub-port of it, at any depth, is void. -/
def Gapped (p : Port) : Prop := ∃ path q, p.sub? path = some q ∧ q.isVoid

theorem gapped_iff {p : Port} : p.Gapped ↔ p.isVoid ∨ ∃ q ∈ p.subs, q.Gapped := by
  constructor
  · intro h
    obtain ⟨path, r, hr, hvoid⟩ := h
    cases path with
    | nil =>
      cases hr
      exact .inl hvoid
    | cons k path =>
      obtain ⟨q, hq, hr⟩ := Option.bind_eq_some_iff.mp hr
      exact .inr ⟨q, List.mem_of_getElem? hq, path, r, hr, hvoid⟩
  · intro h
    obtain hvoid | ⟨q, hq, path, r, hr, hvoid⟩ := h
    · exact ⟨[], p, rfl, hvoid⟩
    · obtain ⟨k, hk⟩ := List.getElem?_of_mem hq
      exact ⟨k :: path, r, Option.bind_eq_some_iff.mpr ⟨q, hk, hr⟩, hvoid⟩

mutual
def zeros : Port → Value
  | ⟨_, interface, _, subs⟩ => if interface.isBit then .low else .collection none (zerosAll subs)
def zerosAll : List Port → List Value
  | [] => []
  | p :: ps => zeros p :: zerosAll ps
end

theorem zerosAll_eq_map (subs : List Port) : zerosAll subs = subs.map zeros :=
  eq_map_of_cons zerosAll rfl (fun _ _ => rfl) subs

def Silent (t : LinkTable) (p : Port) : Prop :=
  ∀ path q, p.sub? path = some q → carried t q.links = none

theorem Silent.here {t : LinkTable} {p : Port} (h : p.Silent t) : carried t p.links = none :=
  h [] p rfl

theorem Silent.sub {t : LinkTable} {p q : Port} (h : p.Silent t) (hq : q ∈ p.subs) :
    q.Silent t := by
  intro path r hr
  obtain ⟨k, hk⟩ := List.getElem?_of_mem hq
  exact h (k :: path) r (Option.bind_eq_some_iff.mpr ⟨q, hk, hr⟩)

section
variable {t : LinkTable} {subs : List Port}

theorem of_readAll_none (h : readAll t subs = .ok none) : ∃ q ∈ subs, read t q = .ok none := by
  induction subs with
  | nil => cases h
  | cons q subs ih =>
    rw [readAll] at h
    rcases hq : read t q with e | _ | v
    · rw [hq] at h
      cases h
    · exact ⟨q, List.mem_cons_self, hq⟩
    · rw [hq] at h
      rcases hs : readAll t subs with e | _ | vs
      · rw [hs] at h
        cases h
      · obtain ⟨r, hr, he⟩ := ih hs
        exact ⟨r, List.mem_cons_of_mem _ hr, he⟩
      · rw [hs] at h
        cases h

theorem readAll_eq_none (hok : ∀ q ∈ subs, ∃ o, read t q = .ok o)
    (h : ∃ q ∈ subs, read t q = .ok none) : readAll t subs = .ok none := by
  induction subs with
  | nil =>
    obtain ⟨q, hq, -⟩ := h
    cases hq
  | cons q subs ih =>
    obtain ⟨o, ho⟩ := hok q List.mem_cons_self
    cases o with
    | none => rw [readAll, ho]
    | some v =>
      have hrest : ∃ r ∈ subs, read t r = .ok none := by
        obtain ⟨r, hr, hnone⟩ := h
        obtain rfl | hr := List.mem_cons.mp hr
        · rw [hnone] at ho
          cases ho
        · exact ⟨r, hr, hnone⟩
      rw [readAll, ho, ih (fun r hr => hok r (List.mem_cons_of_mem _ hr)) hrest]
      rfl

end

section
variable {t : LinkTable} {p : Port}

theorem read_of_isVoid (hc : carried t p.links = none) (h : p.isVoid) : read t p = .ok none := by
  obtain ⟨d, i, ls, subs⟩ := p
  simp only at hc
  cases i <;> simp_all [read, isVoid, Interface.isNone, Interface.isAny]

theorem read_of_isBit (hc : carried t p.links = none) (h : p.interface.isBit) :
    read t p = .ok (some .low) := by
  obtain ⟨d, i, ls, subs⟩ := p
  simp only at hc
  cases i <;> simp_all [read, Interface.isBit]

theorem read_of_parts (hc : carried t p.links = none) (hv : p.isVoid = false)
    (hb : p.interface.isBit = false) :
    read t p = (Option.map (.collection none)) <$> readAll t p.subs := by
  obtain ⟨d, i, ls, subs⟩ := p
  simp only at hc
  cases i <;> simp_all [read, isVoid, Interface.isNone, Interface.isAny, Interface.isBit]

end

/-- A read is without a value only where it comes to a void place. -/
theorem gapped_of_read_none {t : LinkTable} {p : Port} (h : read t p = .ok none) : p.Gapped := by
  induction p with
  | mk d i ls subs ih =>
    cases hc : carried t ls with
    | some v =>
      unfold read at h
      rw [hc] at h
      dsimp only at h
      cases hw : i.check v <;> rw [hw] at h <;> cases h
    | none =>
      rw [gapped_iff]
      by_cases hv : (Port.mk d i ls subs).isVoid = true
      · exact .inl hv
      rw [Bool.not_eq_true] at hv
      by_cases hb : i.isBit = true
      · rw [read_of_isBit hc hb] at h
        cases h
      rw [Bool.not_eq_true] at hb
      rw [read_of_parts hc hv hb] at h
      have hall : readAll t subs = .ok none := by
        rcases hs : readAll t subs with e | _ | vs
        · rw [hs] at h
          cases h
        · rfl
        · rw [hs] at h
          cases h
      obtain ⟨q, hq, hnone⟩ := of_readAll_none hall
      exact .inr ⟨q, hq, ih q hq hnone⟩

theorem zeros_of_isBit {p : Port} (h : p.interface.isBit) : p.zeros = .low := by
  obtain ⟨d, i, ls, subs⟩ := p
  exact if_pos h

theorem zeros_of_parts {p : Port} (h : p.interface.isBit = false) :
    p.zeros = .collection none (p.subs.map zeros) := by
  obtain ⟨d, i, ls, subs⟩ := p
  rw [zeros, h, zerosAll_eq_map]
  rfl

namespace Silent
variable {d : Direction} {t : LinkTable} {p : Port}

theorem isOk (h : p.Silent t) : ∃ o, read t p = .ok o := by
  cases hr : read t p with
  | ok o => exact ⟨o, rfl⟩
  | error e =>
    obtain ⟨path, q, v, hq, hv, -⟩ := of_read_error hr
    rw [h path q hq] at hv
    cases hv

theorem read_of_gapped (h : p.Silent t) (hp : p.Shaped d) (hg : p.Gapped) :
    read t p = .ok none := by
  induction p with
  | mk d' i ls subs ih =>
    by_cases hv : (Port.mk d' i ls subs).isVoid = true
    · exact read_of_isVoid h.here hv
    obtain hvoid | ⟨q, hq, hg⟩ := gapped_iff.mp hg
    · exact absurd hvoid hv
    obtain ⟨k, hk⟩ := List.getElem?_of_mem hq
    have hb : i.isBit = false := by
      -- a bit has no sub-ports
      have hchild := hp.fits.child hk
      cases i <;> first | rfl | cases hchild
    have hnone := ih q hq (h.sub hq) (hp.sub hk) hg
    rw [read_of_parts h.here (Bool.eq_false_iff.mpr hv) hb,
      readAll_eq_none (fun r hr => (h.sub hr).isOk) ⟨q, hq, hnone⟩]
    rfl

theorem eq_zeros (h : p.Silent t) {v : Value} (hv : read t p = .ok (some v)) : v = p.zeros := by
  induction p generalizing v with
  | mk d' i ls subs ih =>
    by_cases hvoid : (Port.mk d' i ls subs).isVoid = true
    · rw [read_of_isVoid h.here hvoid] at hv
      cases hv
    by_cases hb : i.isBit = true
    · rw [read_of_isBit h.here hb] at hv
      cases hv
      exact (zeros_of_isBit hb).symm
    rw [Bool.not_eq_true] at hvoid hb
    rw [read_of_parts h.here hvoid hb] at hv
    rcases hs : readAll t subs with e | _ | vs
    · rw [hs] at hv
      cases hv
    · rw [hs] at hv
      cases hv
    · rw [hs] at hv
      cases hv
      obtain ⟨hlength, hparts⟩ := of_readAll hs
      have hvs : vs = subs.map zeros := by
        refine List.ext_getElem (by rw [hlength, List.length_map]) fun k hk hk' => ?_
        have hlt : k < subs.length := hlength ▸ hk
        have hq := List.getElem_mem hlt
        rw [List.getElem_map]
        exact ih _ hq (h.sub hq) (hparts k _ _ (List.getElem?_eq_getElem hlt)
          (List.getElem?_eq_getElem hk))
      rw [hvs, zeros_of_parts hb]

end Silent

theorem not_gapped_of_grounded {d : Direction} {p : Port} (hp : p.Shaped d)
    (h : p.interface.Grounded) : ¬ p.Gapped := by
  intro hg
  obtain ⟨path, q, hq, hvoid⟩ := hg
  have hq := h.childAt (hp.childAt hq)
  obtain ⟨d', i, ls, subs⟩ := q
  cases hq <;> cases hvoid

/-- A value that is read fits the port. A read fails only where a first link, at the port or below
it, carried what does not fit there; it gives nothing only where the type leaves something open. And
where no first link carried anything, it gives the tree of zeros, or nothing where the port has a
void place. -/
theorem read_sound_and_complete {d : Direction} {p : Port} (hp : p.Reachable d) (t : LinkTable) :
    (∀ v, read t p = .ok (some v) → p.interface.accepts v = true) ∧
    (∀ e, read t p = .error e → ∃ path q id l v, p.sub? path = some q ∧
      q.links.head? = some id ∧ t.get? id = some l ∧ l.last = some v ∧
      q.interface.accepts v = false ∧ e = .type (.valueMismatch v q.interface)) ∧
    (p.interface.Grounded → read t p ≠ .ok none) ∧
    (p.Silent t →
      (p.Gapped → read t p = .ok none) ∧ (¬ p.Gapped → read t p = .ok (some p.zeros))) := by
  have hshaped := hp.shaped
  refine ⟨fun v h => accepts_of_read hshaped h, fun e h => ?_, fun hg h => ?_, fun hs => ?_⟩
  · obtain ⟨path, q, v, hq, hv, hrefused, he⟩ := of_read_error h
    obtain ⟨id, hid, hv⟩ := Option.bind_eq_some_iff.mp hv
    obtain ⟨l, hl, hv⟩ := Option.bind_eq_some_iff.mp hv
    exact ⟨path, q, id, l, v, hq, hid, hl, hv, hrefused, he⟩
  · exact not_gapped_of_grounded hshaped hg (gapped_of_read_none h)
  · refine ⟨hs.read_of_gapped hshaped, fun hg => ?_⟩
    obtain ⟨o, ho⟩ := hs.isOk
    cases o with
    | none => exact absurd (gapped_of_read_none ho) hg
    | some v => rw [ho, hs.eq_zeros ho]

/-- An input for a row of bits and a pair, with a link at the second bit and one at the pair. -/
def wiredRow : Port :=
  [.attach [0, 1] 0, .attach [1] 1].foldl revised
    (new .input (.collection none [.rest none (.bit none),
      .collection none [.bit none, .bit none]]))

/-- A value for the pair is taken whole, and a pair for the second bit is refused. -/
theorem read_sound_and_complete_row :
    let end_ : Endpoint := ⟨.boundary, []⟩
    let t (v w : Option Value) : LinkTable :=
      ⟨[(0, .seeded end_ end_ (.any none) v), (1, .seeded end_ end_ (.any none) w)], 2⟩
    let pair : Value := .bits [true, false]
    wiredRow.Reachable .input ∧ wiredRow.interface.Grounded ∧
    read (t none (some pair)) wiredRow =
      .ok (some (.collection none [.bits [false, false], pair])) ∧
    wiredRow.interface.accepts (.collection none [.bits [false, false], pair]) = true ∧
    (∃ e, read (t (some pair) none) wiredRow = .error e ∧ ∃ path q id l v,
      wiredRow.sub? path = some q ∧ q.links.head? = some id ∧
      (t (some pair) none).get? id = some l ∧ l.last = some v ∧ q.interface.accepts v = false ∧
      e = .type (.valueMismatch v q.interface)) ∧
    read (t none none) wiredRow =
      .ok (some (.collection none [.bits [false, false], .bits [false, false]])) := by
  intro end_ t pair
  have hp : wiredRow.Reachable .input := (Reachable.new _).foldl_revised _
  have hg : wiredRow.interface.Grounded := by
    refine .collection _ fun c hc => ?_
    obtain rfl | rfl :
        c = .rest none (.bit none) ∨ c = .collection none [.bit none, .bit none] := by
      simpa using hc
    · exact .rest _ (.bit _)
    · refine .collection _ fun c hc => ?_
      obtain rfl : c = .bit none := by simpa using hc
      exact .bit _
  have hread : read (t none (some pair)) wiredRow =
      .ok (some (.collection none [.bits [false, false], pair])) := rfl
  have hfails : read (t (some pair) none) wiredRow =
      .error (.type (.valueMismatch pair (.bit none))) := rfl
  have hsilent : wiredRow.Silent (t none none) := by
    intro path q _
    cases hv : carried (t none none) q.links with
    | none => rfl
    | some v =>
      obtain ⟨id, -, l, hl, hlast⟩ := of_carried hv
      have hmem : (id, l) ∈ (t none none).entries := Entries.mem_of_get? hl
      obtain ⟨-, rfl⟩ | ⟨-, rfl⟩ : (id = 0 ∧ l = .seeded end_ end_ (.any none) none) ∨
          (id = 1 ∧ l = .seeded end_ end_ (.any none) none) := by
        simpa [t] using hmem
      · cases hlast
      · cases hlast
  refine ⟨hp, hg, hread, (read_sound_and_complete hp _).1 _ hread,
    ⟨_, hfails, (read_sound_and_complete hp _).2.1 _ hfails⟩, ?_⟩
  exact ((read_sound_and_complete hp _).2.2.2 hsilent).2 (not_gapped_of_grounded hp.shaped hg)

end Port
end TickCircuit
