import TickCircuit.Port.Signal
import TickCircuit.Proofs.Port.Shape
/-!
Values at ports. A port that accepts a value accepts all of its parts, so that writing is all or
nothing (`write_eq`); and what a port reads depends on the last values alone (`read_stale`).
-/
namespace TickCircuit

def Value.sub? (v : Value) : Path → Option Value
  | [] => some v
  | i :: path => (v.children?.getD [])[i]? >>= (·.sub? path)

theorem Interface.acceptsAll_iff {cs : List Interface} {vs : List Value} :
    acceptsAll cs vs = true ↔ cs.length = vs.length ∧
      ∀ (k : Nat) c v, cs[k]? = some c → vs[k]? = some v → c.accepts v = true := by
  apply all_pairs_iff <;> simp [acceptsAll]

theorem Interface.accepts_child {i c : Interface} {v w : Value} {k : Nat} (h : i.accepts v = true)
    (hc : i.child? k = some c) (hw : (v.children?.getD [])[k]? = some w) : c.accepts w = true := by
  cases v with
  | bit l b => simp [Value.children?] at hw
  | collection l vs =>
    simp only [Value.children?, Option.getD_some] at hw
    cases i with
    | bit m => simp [accepts] at h
    | none m => simp [accepts] at h
    | any m =>
      cases hc
      simp [accepts]
    | rest m e =>
      cases hc
      simp only [accepts, List.all_eq_true] at h
      exact h w (List.mem_of_getElem? hw)
    | collection m cs =>
      simp only [accepts, acceptsAll_iff] at h
      exact h.2 k c w hc hw

namespace Port

mutual
/-- The links that a value written at a port reaches, each with the part that it gets. -/
def delivery (v : Value) : Port → List (LinkId × Value)
  | ⟨_, _, links, subs⟩ => links.map (·, v) ++ deliveryBelow (v.children?.getD []) subs
def deliveryBelow (vs : List Value) : List Port → List (LinkId × Value)
  | [] => []
  | p :: ps =>
    match vs with
    | [] => []
    | v :: vs => delivery v p ++ deliveryBelow vs ps
end

theorem mem_deliveryBelow {id : LinkId} {w : Value} {vs : List Value} {subs : List Port} :
    (id, w) ∈ deliveryBelow vs subs ↔
      ∃ (k : Nat) (q : Port) (v : Value), subs[k]? = some q ∧ vs[k]? = some v ∧
        (id, w) ∈ q.delivery v := by
  induction subs generalizing vs with
  | nil => simp [deliveryBelow]
  | cons q subs ih =>
    cases vs with
    | nil => simp [deliveryBelow]
    | cons v vs =>
      simp only [deliveryBelow, List.mem_append, ih]
      constructor
      · intro hx
        obtain h | ⟨k, h⟩ := hx
        · exact ⟨0, q, v, rfl, rfl, h⟩
        · exact ⟨k + 1, h⟩
      · intro hx
        obtain ⟨k, q', v', hq, hv, h⟩ := hx
        cases k with
        | zero => cases hq; cases hv; exact .inl h
        | succ k => exact .inr ⟨k, q', v', hq, hv, h⟩

theorem mem_delivery {p : Port} {v w : Value} {id : LinkId} :
    (id, w) ∈ p.delivery v ↔ ∃ path, id ∈ p.linksAt path ∧ v.sub? path = some w := by
  induction p generalizing v with
  | mk d i ls subs ih =>
    rw [delivery, List.mem_append, mem_deliveryBelow]
    constructor
    · intro hy
      obtain h | ⟨k, q, u, hq, hu, h⟩ := hy
      · obtain ⟨x, hx, he⟩ := List.mem_map.mp h
        cases he
        exact ⟨[], hx, rfl⟩
      · obtain ⟨path, hp, hs⟩ := (ih q (List.mem_of_getElem? hq)).mp h
        exact ⟨k :: path, by simpa [linksAt_cons, hq] using hp, by simp [Value.sub?, hu, hs]⟩
    · intro hy
      obtain ⟨path, hp, hs⟩ := hy
      cases path with
      | nil =>
        cases hs
        exact .inl (List.mem_map.mpr ⟨id, hp, rfl⟩)
      | cons k path =>
        obtain ⟨u, hu, hs⟩ := Option.bind_eq_some_iff.mp hs
        rw [linksAt_cons] at hp
        cases hq : subs[k]? with
        | none => simp [hq] at hp
        | some q =>
          refine .inr ⟨k, q, u, hq, hu, (ih q (List.mem_of_getElem? hq)).mpr ⟨path, ?_, hs⟩⟩
          simpa [hq] using hp

end Port

namespace LinkTable

def writeEach (t : LinkTable) (ws : List (LinkId × Value)) : LinkTable :=
  ws.foldl (fun t (id, w) => t.write id w) t

theorem writeEach_append (t : LinkTable) (us ws : List (LinkId × Value)) :
    t.writeEach (us ++ ws) = (t.writeEach us).writeEach ws := List.foldl_append

theorem writeEach_map (t : LinkTable) (v : Value) (links : List LinkId) :
    t.writeEach (links.map (·, v)) = Port.writeLinks v links t := by
  rw [writeEach, Port.writeLinks, List.foldl_map]

/-- The table without what was written this tick, which is all that a reader sees of it. -/
def stale (t : LinkTable) : LinkTable :=
  { t with entries := t.entries.map fun (id, l) => (id, { l with current := none }) }

theorem stale_write (t : LinkTable) (id : LinkId) (v : Value) : (t.write id v).stale = t.stale := by
  have h := Entries.map_modify (k := id) (f := fun l : Link => { l with current := some v })
    (g := fun e => (e.1, { e.2 with current := none })) (fun _ => rfl) t.entries
  simp only [stale, write, modify, LinkTable.mk.injEq, and_true]
  exact h

theorem stale_writeEach (t : LinkTable) (ws : List (LinkId × Value)) :
    (t.writeEach ws).stale = t.stale := by
  induction ws generalizing t with
  | nil => rfl
  | cons w ws ih => exact (ih (t.write w.1 w.2)).trans (stale_write t w.1 w.2)

def written (ws : List (LinkId × Value)) (id : LinkId) (current : Option Value) : Option Value :=
  ws.foldl (fun current (j, w) => if j = id then some w else current) current

theorem entries_writeEach {t : LinkTable} (hn : t.ids.Nodup) (ws : List (LinkId × Value)) :
    (t.writeEach ws).entries =
      t.entries.map fun (id, l) => (id, { l with current := written ws id l.current }) := by
  induction ws generalizing t with
  | nil => exact (List.map_id _).symm
  | cons w ws ih =>
    have hn' : (t.write w.1 w.2).ids.Nodup := by rwa [ids_write]
    have hw : (t.write w.1 w.2).entries = t.entries.map fun (id, l) =>
        (id, if id = w.1 then { l with current := some w.2 } else l) :=
      Entries.modify_eq_map hn _ _
    have hstep : t.writeEach (w :: ws) = (t.write w.1 w.2).writeEach ws := rfl
    rw [hstep, ih hn', hw, List.map_map]
    refine List.map_congr_left fun e _ => ?_
    obtain ⟨id, l⟩ := e
    by_cases hid : id = w.1
    · simp [written, hid]
    · simp [written, hid, Ne.symm hid]

theorem written_cases (ws : List (LinkId × Value)) (id : LinkId) (current : Option Value) :
    (written ws id current = current ∧ ∀ w, (id, w) ∉ ws) ∨
      ∃ w, (id, w) ∈ ws ∧ written ws id current = some w := by
  induction ws generalizing current with
  | nil => exact .inl ⟨rfl, by simp⟩
  | cons w ws ih =>
    obtain ⟨j, w⟩ := w
    obtain ⟨he, hn⟩ | ⟨u, hu, he⟩ := ih (if j = id then some w else current)
    · by_cases hj : j = id
      · subst hj
        exact .inr ⟨w, List.mem_cons_self, by simpa [written] using he⟩
      · refine .inl ⟨by simpa [written, hj] using he, fun u hu => ?_⟩
        obtain hu | hu := List.mem_cons.mp hu
        · cases hu
          exact hj rfl
        · exact hn u hu
    · exact .inr ⟨u, List.mem_cons_of_mem _ hu, he⟩

theorem written_eq {ws : List (LinkId × Value)} {id : LinkId} {o : Option Value}
    (ho : ∀ w, (id, w) ∈ ws ↔ o = some w) (current : Option Value) :
    written ws id current = o.or current := by
  obtain ⟨he, hn⟩ | ⟨w, hw, he⟩ := written_cases ws id current
  · cases o with
    | none => exact he
    | some w => exact absurd ((ho w).mpr rfl) (hn w)
  · rw [he, (ho w).mp hw]
    rfl

theorem get?_writeEach (t : LinkTable) (ws : List (LinkId × Value)) (id : LinkId) :
    (t.writeEach ws).get? id =
      (t.get? id).map fun l => { l with current := written ws id l.current } := by
  induction ws generalizing t with
  | nil => exact Option.map_id'.symm
  | cons w ws ih =>
    have hstep : t.writeEach (w :: ws) = (t.write w.1 w.2).writeEach ws := rfl
    have hget : (t.write w.1 w.2).get? id =
        if w.1 = id then (t.get? id).map fun l => { l with current := some w.2 } else t.get? id :=
      Entries.get?_modify _ _ _ _
    rw [hstep, ih, hget]
    by_cases hid : w.1 = id
    · simp [written, hid, Function.comp_def]
    · simp [written, hid]

theorem get?_writeEach_of_not_mem {ws : List (LinkId × Value)} {id : LinkId}
    (h : ∀ v, (id, v) ∉ ws) (t : LinkTable) : (t.writeEach ws).get? id = t.get? id := by
  have hkept : ∀ current, written ws id current = current := by
    intro current
    obtain ⟨he, -⟩ | ⟨w, hw, -⟩ := written_cases ws id current
    · exact he
    · exact absurd hw (h w)
  rw [get?_writeEach]
  simp only [hkept]
  exact Option.map_id'

end LinkTable

namespace Port

theorem write_eq_of_not_accepts {p : Port} (hp : p.Shaped .output) {v : Value}
    (h : p.interface.accepts v = false) (t : LinkTable) :
    write v t p = (t, .error (.type (.valueMismatch v p.interface))) := by
  have hd := hp.fits.direction
  obtain ⟨d, i, ls, subs⟩ := p
  simp only at hd h ⊢
  simp [write, hd, Interface.check, h]

theorem write_eq {p : Port} (hp : p.Shaped .output) {v : Value} (h : p.interface.accepts v = true)
    (t : LinkTable) : write v t p = (t.writeEach (p.delivery v), .ok ()) := by
  induction p generalizing v t with
  | mk d i ls subs ih =>
    -- the parts go to the sub-ports from left to right
    have hbelow : ∀ (qs : List Port) (vs : List Value) (t : LinkTable), (∀ q ∈ qs, q ∈ subs) →
        (∀ (k : Nat) q w, qs[k]? = some q → vs[k]? = some w → q.interface.accepts w = true) →
        writeAll vs t qs = (t.writeEach (deliveryBelow vs qs), .ok ()) := by
      intro qs
      induction qs with
      | nil =>
        intro vs t _ _
        rfl
      | cons q qs ihq =>
        intro vs t hqs hacc
        cases vs with
        | nil => rfl
        | cons w vs =>
          have hq := hqs q List.mem_cons_self
          obtain ⟨k, hk⟩ := List.getElem?_of_mem hq
          rw [writeAll, ih q hq (hp.sub hk) (hacc 0 q w rfl rfl)]
          dsimp only
          rw [ihq vs _ (fun r hr => hqs r (List.mem_cons_of_mem _ hr)) fun k => hacc (k + 1),
            deliveryBelow, LinkTable.writeEach_append]
    have hd : d = .output := hp.fits.direction
    have hparts : ∀ (k : Nat) q w, subs[k]? = some q → (v.children?.getD [])[k]? = some w →
        q.interface.accepts w = true :=
      fun k q w hq hw => Interface.accepts_child h (hp.fits.child hq) hw
    simp only [write, hd, reduceCtorEq, if_false, Interface.check_eq_ok_iff.mpr h]
    rw [hbelow subs _ _ (fun _ h => h) hparts, delivery, LinkTable.writeEach_append,
      LinkTable.writeEach_map]

/-- A read sees of a table no more than the last values of the links at the port and below it. -/
theorem read_congr {t u : LinkTable} {p : Port}
    (h : ∀ id ∈ p.allLinks, (t.get? id).bind (·.last) = (u.get? id).bind (·.last)) :
    read t p = read u p := by
  induction p with
  | mk d i ls subs ih =>
    have hcarried : carried t ls = carried u ls := by
      cases ls with
      | nil => rfl
      | cons id ls => exact h id (by simp [allLinks])
    have hall : ∀ qs : List Port, (∀ q ∈ qs, q ∈ subs) → readAll t qs = readAll u qs := by
      intro qs
      induction qs with
      | nil =>
        intro _
        rfl
      | cons q qs ihq =>
        intro hqs
        have hq := hqs q List.mem_cons_self
        have hlinks : ∀ id ∈ q.allLinks, (t.get? id).bind (·.last) = (u.get? id).bind (·.last) :=
          fun id hid => h id (List.mem_append_right _ (mem_linksBelow.mpr ⟨q, hq, hid⟩))
        rw [readAll, readAll, ih q hq hlinks, ihq fun r hr => hqs r (List.mem_cons_of_mem _ hr)]
    unfold read
    rw [hcarried, hall subs fun _ h => h]

theorem read_stale (t : LinkTable) (p : Port) : read t.stale p = read t p := by
  refine read_congr fun id _ => ?_
  have h := Entries.get?_map (fun l : Link => { l with current := none }) id t.entries
  rw [LinkTable.get?, LinkTable.stale, LinkTable.get?]
  simp only
  rw [h]
  cases Entries.get? id t.entries <;> rfl

theorem of_readAll {t : LinkTable} {subs : List Port} {vs : List Value}
    (h : readAll t subs = .ok (some vs)) : vs.length = subs.length ∧
      ∀ (k : Nat) q w, subs[k]? = some q → vs[k]? = some w → read t q = .ok (some w) := by
  induction subs generalizing vs with
  | nil =>
    cases h
    exact ⟨rfl, by simp⟩
  | cons q subs ih =>
    rw [readAll] at h
    cases hq : read t q with
    | error e => simp [hq] at h
    | ok o =>
      cases o with
      | none => simp [hq] at h
      | some w =>
        cases hs : readAll t subs with
        | error e => simp [hq, hs, Functor.map, Except.map] at h
        | ok o =>
          cases o with
          | none => simp [hq, hs, Functor.map, Except.map] at h
          | some ws =>
            simp only [hq, hs, Functor.map, Except.map, Option.map_some, Except.ok.injEq,
              Option.some.injEq] at h
            subst h
            obtain ⟨hl, hr⟩ := ih hs
            refine ⟨congrArg Nat.succ hl, fun k r u hk hu => ?_⟩
            cases k with
            | zero =>
              cases hk
              cases hu
              exact hq
            | succ k => exact hr k r u hk hu

theorem of_readAll_error {t : LinkTable} {subs : List Port} {e : Fault}
    (h : readAll t subs = .error e) : ∃ q ∈ subs, read t q = .error e := by
  induction subs with
  | nil => cases h
  | cons q subs ih =>
    rw [readAll] at h
    rcases hq : read t q with e' | _ | v
    · rw [hq] at h
      cases h
      exact ⟨q, List.mem_cons_self, hq⟩
    · rw [hq] at h
      cases h
    · rw [hq] at h
      cases hs : readAll t subs with
      | error e' =>
        rw [hs] at h
        cases h
        obtain ⟨r, hr, he⟩ := ih hs
        exact ⟨r, List.mem_cons_of_mem _ hr, he⟩
      | ok vs =>
        rw [hs] at h
        cases h

theorem of_carried {t : LinkTable} {links : List LinkId} {v : Value}
    (h : carried t links = some v) :
    ∃ id ∈ links, ∃ l, t.get? id = some l ∧ l.last = some v := by
  obtain ⟨id, hid, h⟩ := Option.bind_eq_some_iff.mp h
  obtain ⟨l, hl, hv⟩ := Option.bind_eq_some_iff.mp h
  exact ⟨id, List.mem_of_mem_head? hid, l, hl, hv⟩

/-- A read fails only where a link, the first one at its place, carries what does not fit. -/
theorem of_read_error {t : LinkTable} {p : Port} {e : Fault} (h : read t p = .error e) :
    ∃ path q v, p.sub? path = some q ∧ carried t q.links = some v ∧
      q.interface.accepts v = false ∧ e = .type (.valueMismatch v q.interface) := by
  induction p with
  | mk d i ls subs ih =>
    have hparts : (Option.map (Value.collection none)) <$> readAll t subs = .error e →
        ∃ path q v, (Port.mk d i ls subs).sub? path = some q ∧ carried t q.links = some v ∧
          q.interface.accepts v = false ∧ e = .type (.valueMismatch v q.interface) := by
      intro h
      have hall : readAll t subs = .error e := by
        cases hr : readAll t subs with
        | error e' =>
          rw [hr] at h
          cases h
          rfl
        | ok vs =>
          rw [hr] at h
          cases h
      obtain ⟨q, hq, he⟩ := of_readAll_error hall
      obtain ⟨k, hk⟩ := List.getElem?_of_mem hq
      obtain ⟨path, r, v, hr, hv⟩ := ih q hq he
      exact ⟨k :: path, r, v, Option.bind_eq_some_iff.mpr ⟨q, hk, hr⟩, hv⟩
    unfold read at h
    cases hc : carried t ls with
    | some v =>
      rw [hc] at h
      dsimp only at h
      cases ha : i.accepts v with
      | true =>
        rw [Interface.check_eq_ok_iff.mpr ha] at h
        cases h
      | false =>
        simp only [Interface.check, ha] at h
        cases h
        exact ⟨[], _, v, rfl, hc, ha, rfl⟩
    | none =>
      rw [hc] at h
      cases i with
      | bit l => cases h
      | none l => cases h
      | rest l c => exact hparts h
      | collection l cs => exact hparts h
      | any l =>
        dsimp only at h
        split at h
        · cases h
        · exact hparts h

/-- Parts that sub-ports accept make up a value that the port accepts. -/
theorem Fits.accepts_parts {d : Direction} {p : Port} (h : p.Fits d) {vs : List Value}
    (hl : vs.length = p.subs.length)
    (hacc : ∀ (k : Nat) q w, p.subs[k]? = some q → vs[k]? = some w → q.interface.accepts w = true)
    (hparts : (∀ l, p.interface ≠ .bit l) ∧ ∀ l, p.interface ≠ .none l) :
    p.interface.accepts (.collection none vs) = true := by
  cases hi : p.interface with
  | any l => simp [Interface.accepts]
  | bit l => exact absurd hi (hparts.1 l)
  | none l => exact absurd hi (hparts.2 l)
  | rest l e =>
    simp only [Interface.accepts, List.all_eq_true]
    intro w hw
    obtain ⟨k, hk⟩ := List.getElem?_of_mem hw
    have hlt : k < p.subs.length := hl ▸ (List.getElem?_eq_some_iff.mp hk).1
    have hq := List.getElem?_eq_getElem hlt
    have hc := h.child hq
    rw [hi, Interface.child?, Option.some.injEq] at hc
    rw [hc]
    exact hacc k _ w hq hk
  | collection l cs =>
    simp only [Interface.accepts, Interface.acceptsAll_iff]
    refine ⟨(hl.trans (h.length_subs hi)).symm, fun k c w hk hw => ?_⟩
    have hlt : k < p.subs.length := hl ▸ (List.getElem?_eq_some_iff.mp hw).1
    have hq := List.getElem?_eq_getElem hlt
    have hc := h.child hq
    rw [hi, Interface.child?, hk, Option.some.injEq] at hc
    rw [hc]
    exact hacc k _ w hq hw

/-- What a port reads, its interface accepts. -/
theorem accepts_of_read {d : Direction} {p : Port} (hp : p.Shaped d) {t : LinkTable} {v : Value}
    (h : read t p = .ok (some v)) : p.interface.accepts v = true := by
  induction p generalizing v with
  | mk d' i ls subs ih =>
    -- a value put together from the sub-ports
    have hcollect : (∀ l, i ≠ .bit l) ∧ (∀ l, i ≠ .none l) →
        (Option.map (Value.collection none)) <$> readAll t subs = .ok (some v) →
        i.accepts v = true := by
      intro hi hv
      cases hs : readAll t subs with
      | error e => simp [hs, Functor.map, Except.map] at hv
      | ok o =>
        cases o with
        | none => simp [hs, Functor.map, Except.map] at hv
        | some vs =>
          simp only [hs, Functor.map, Except.map, Option.map_some, Except.ok.injEq,
            Option.some.injEq] at hv
          subst hv
          obtain ⟨hl, hr⟩ := of_readAll hs
          exact hp.fits.accepts_parts hl (fun k q w hq hw =>
            ih q (List.mem_of_getElem? hq) (hp.sub hq) (hr k q w hq hw)) hi
    unfold read at h
    cases hc : carried t ls with
    | some w =>
      rw [hc] at h
      dsimp only at h
      cases hw : i.check w with
      | error e =>
        rw [hw] at h
        cases h
      | ok u =>
        rw [hw] at h
        cases h
        exact Interface.check_eq_ok_iff.mp hw
    | none =>
      rw [hc] at h
      cases i with
      | any l => simp [Interface.accepts]
      | bit l =>
        cases h
        rfl
      | none l => simp at h
      | rest l e => exact hcollect ⟨nofun, nofun⟩ h
      | collection l cs => exact hcollect ⟨nofun, nofun⟩ h

end Port
end TickCircuit
