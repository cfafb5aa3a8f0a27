import TickCircuit.Interface.Merge
import TickCircuit.Proofs.Induction
import TickCircuit.Proofs.Results
/-!
Interfaces that can be merged. That they agree is a symmetric relation which does not look at
labels, and all that a merge asks for (`Agree.merge`). Main statements: what a sink admits agrees
with it (`agree_of_admits`), what a merge yields agrees with both sides (`Merged.agree`), and,
labels aside, the parts of a merge are merges of the parts (`merge_childAt`).
-/
namespace TickCircuit

namespace Interface

mutual
def bare : Interface → Interface
  | .bit _ => .bit Option.none
  | .any _ => .any Option.none
  | .none _ => .none Option.none
  | .rest _ e => .rest Option.none e.bare
  | .collection _ cs => .collection Option.none (bareAll cs)
def bareAll : List Interface → List Interface
  | [] => []
  | c :: cs => c.bare :: bareAll cs
end

theorem bareAll_eq_map (cs : List Interface) : bareAll cs = cs.map bare :=
  eq_map_of_cons bareAll rfl (fun _ _ => rfl) cs

theorem sameShapes_iff {as bs : List Interface} : sameShapes as bs = true ↔
    as.length = bs.length ∧
      ∀ (k : Nat) a b, as[k]? = some a → bs[k]? = some b → a.sameShape b = true := by
  apply all_pairs_iff <;> simp [sameShapes]

/-- To have the same shape is to be equal but for labels. -/
theorem sameShape_iff {a b : Interface} : a.sameShape b = true ↔ a.bare = b.bare := by
  induction a generalizing b with
  | bit l => cases b <;> simp [sameShape, bare]
  | any l => cases b <;> simp [sameShape, bare]
  | none l => cases b <;> simp [sameShape, bare]
  | rest l e ih => cases b <;> simp [sameShape, bare, ih]
  | collection l as ih =>
    cases b with
    | collection m bs =>
      simp only [sameShape, sameShapes_iff, bare, bareAll_eq_map, Interface.collection.injEq,
        true_and]
      constructor
      · rintro ⟨hlength, hsame⟩
        apply List.ext_getElem
        · rw [List.length_map, List.length_map, hlength]
        · intro k ha hb
          rw [List.length_map] at ha hb
          have hk := hsame k _ _ (List.getElem?_eq_getElem ha) (List.getElem?_eq_getElem hb)
          rw [List.getElem_map, List.getElem_map, (ih _ (List.getElem_mem ha)).mp hk]
      · intro h
        have hlength := congrArg List.length h
        rw [List.length_map, List.length_map] at hlength
        refine ⟨hlength, fun k a b ha hb => (ih a (List.mem_of_getElem? ha)).mpr ?_⟩
        have hk := congrArg (·[k]?) h
        simpa [ha, hb] using hk
    | _ => simp [sameShape, bare]

theorem sameShape_symm {a b : Interface} (h : a.sameShape b = true) : b.sameShape a = true :=
  sameShape_iff.mpr (sameShape_iff.mp h).symm

theorem sameShape_refl (a : Interface) : a.sameShape a = true := sameShape_iff.mpr rfl

theorem sameShape_trans {a b c : Interface} (hab : a.sameShape b = true)
    (hbc : b.sameShape c = true) : a.sameShape c = true :=
  sameShape_iff.mpr ((sameShape_iff.mp hab).trans (sameShape_iff.mp hbc))

theorem sameShape_of_isAny {a b : Interface} (ha : a.isAny) (hb : b.isAny) :
    a.sameShape b = true := by
  cases a <;> cases b <;> simp_all [isAny, sameShape]

theorem bare_child? (i : Interface) (k : Nat) : i.bare.child? k = (i.child? k).map bare := by
  cases i with
  | collection l cs => simp [bare, child?, bareAll_eq_map]
  | _ => simp [bare, child?]

/-- Nothing stands in the way of a merge. -/
inductive Agree : Interface → Interface → Prop where
  | anyLeft (l : Option String) (b : Interface) : Agree (.any l) b
  | anyRight (a : Interface) (l : Option String) : Agree a (.any l)
  | noneLeft (l : Option String) (b : Interface) : Agree (.none l) b
  | noneRight (a : Interface) (l : Option String) : Agree a (.none l)
  | bit (l m : Option String) : Agree (.bit l) (.bit m)
  | collection (l m : Option String) {as bs : List Interface} (length : as.length = bs.length)
    (each : ∀ (k : Nat) a b, as[k]? = some a → bs[k]? = some b → Agree a b) :
    Agree (.collection l as) (.collection m bs)
  | restCollection (l m : Option String) {e : Interface} {cs : List Interface}
    (each : ∀ c ∈ cs, Agree e c) : Agree (.rest l e) (.collection m cs)
  | collectionRest (l m : Option String) {e : Interface} {cs : List Interface}
    (each : ∀ c ∈ cs, Agree c e) : Agree (.collection l cs) (.rest m e)
  | rest (l m : Option String) {a b : Interface} (h : Agree a b) : Agree (.rest l a) (.rest m b)

theorem Agree.refl (a : Interface) : a.Agree a := by
  induction a with
  | bit l => exact .bit l l
  | any l => exact .anyLeft l _
  | none l => exact .noneLeft l _
  | rest l e ih => exact .rest l l ih
  | collection l cs ih =>
    refine .collection l l rfl fun k a b ha hb => ?_
    rw [ha] at hb
    cases hb
    exact ih a (List.mem_of_getElem? ha)

theorem Agree.symm {a b : Interface} (h : a.Agree b) : b.Agree a := by
  induction h with
  | anyLeft l b => exact .anyRight b l
  | anyRight a l => exact .anyLeft l a
  | noneLeft l b => exact .noneRight b l
  | noneRight a l => exact .noneLeft l a
  | bit l m => exact .bit m l
  | collection l m length _ ih =>
    exact .collection m l length.symm fun k b a hb ha => ih k a b ha hb
  | restCollection l m _ ih => exact .collectionRest m l ih
  | collectionRest l m _ ih => exact .restCollection m l ih
  | rest l m _ ih => exact .rest m l ih

/-- Whether interfaces agree depends on their shapes alone. -/
theorem Agree.of_bare {a a' b : Interface} (h : a.Agree b) (ha : a.bare = a'.bare) :
    a'.Agree b := by
  induction h generalizing a' with
  | anyLeft l b => cases a' <;> simp [bare] at ha; exact .anyLeft _ b
  | anyRight a l => exact .anyRight a' l
  | noneLeft l b => cases a' <;> simp [bare] at ha; exact .noneLeft _ b
  | noneRight a l => exact .noneRight a' l
  | bit l m => cases a' <;> simp [bare] at ha; exact .bit _ m
  | @collection l m as bs length _ ih =>
    cases a' with
    | collection l' as' =>
      simp only [bare, bareAll_eq_map, Interface.collection.injEq, true_and] at ha
      have hlen := congrArg List.length ha
      simp only [List.length_map] at hlen
      refine .collection l' m (hlen.symm.trans length) fun k a' b hk hb => ?_
      have hget := congrArg (·[k]?) ha
      simp only [List.getElem?_map, hk] at hget
      obtain ⟨a, ha, hbare⟩ := Option.map_eq_some_iff.mp hget
      exact ih k a b ha hb hbare
    | _ => simp [bare] at ha
  | restCollection l m _ ih =>
    cases a' <;> simp [bare] at ha
    exact .restCollection _ m fun c hc => ih c hc ha
  | @collectionRest l m e cs _ ih =>
    cases a' with
    | collection l' cs' =>
      simp only [bare, bareAll_eq_map, Interface.collection.injEq, true_and] at ha
      refine .collectionRest l' m fun c' hc' => ?_
      obtain ⟨c, hc, hbare⟩ := List.mem_map.mp (ha ▸ List.mem_map_of_mem (f := bare) hc')
      exact ih c hc hbare
    | _ => simp [bare] at ha
  | rest l m _ ih =>
    cases a' <;> simp [bare] at ha
    exact .rest _ m (ih ha)

theorem Agree.of_sameShape {a b b' : Interface} (h : a.Agree b) (hb : b.sameShape b' = true) :
    a.Agree b' := (h.symm.of_bare (sameShape_iff.mp hb)).symm

theorem admitsAll_iff {as bs : List Interface} : admitsAll as bs = true ↔
    as.length = bs.length ∧
      ∀ (k : Nat) a b, as[k]? = some a → bs[k]? = some b → a.admits b = true := by
  apply all_pairs_iff <;> simp [admitsAll]

theorem admits_self (i : Interface) : i.admits i = true := by
  induction i with
  | bit l | any l | none l => simp [admits]
  | rest l e ih => simpa [admits] using ih
  | collection l cs ih =>
    rw [admits, admitsAll_iff]
    refine ⟨rfl, fun k a b ha hb => ?_⟩
    cases ha.symm.trans hb
    exact ih a (List.mem_of_getElem? ha)

theorem agree_of_admits {sink source : Interface} (h : sink.admits source = true) :
    sink.Agree source := by
  induction sink generalizing source with
  | bit l =>
    cases source with
    | bit m => exact .bit l m
    | any m => exact .anyRight _ m
    | _ => simp [admits] at h
  | any l => exact .anyLeft l source
  | none l => exact .noneLeft l source
  | rest l e ih =>
    cases source with
    | any m => exact .anyRight _ m
    | rest m f =>
      rw [admits] at h
      exact .rest l m (ih h)
    | collection m cs =>
      refine .restCollection l m ?_
      cases cs with
      | nil => simp
      | cons c cs =>
        -- the first child stands for all of them
        simp only [admits, Bool.and_eq_true, List.all_eq_true] at h
        intro c' hc'
        obtain rfl | hc' := List.mem_cons.mp hc'
        · exact ih h.2
        · have hshape := (sameShape_iff.mp (h.1 c' hc')).symm
          exact (ih h.2).of_sameShape (sameShape_iff.mpr hshape)
    | _ => simp [admits] at h
  | collection l cs ih =>
    cases source with
    | any m => exact .anyRight _ m
    | rest m e =>
      refine .collectionRest l m ?_
      cases cs with
      | nil => simp
      | cons c cs =>
        simp only [admits, Bool.and_eq_true, List.all_eq_true] at h
        have hc := ih c List.mem_cons_self h.2
        intro c' hc'
        obtain rfl | hc' := List.mem_cons.mp hc'
        · exact hc
        · exact hc.of_bare (sameShape_iff.mp (h.1 c' hc')).symm
    | collection m bs =>
      rw [admits, admitsAll_iff] at h
      exact .collection l m h.1 fun k a b ha hb =>
        ih a (List.mem_of_getElem? ha) (h.2 k a b ha hb)
    | _ => simp [admits] at h

theorem mergeAll_eq_mapM {as bs : List Interface} (h : as.length = bs.length) :
    mergeAll as bs = (as.zip bs).mapM fun (a, b) => a.merge b := by
  induction as generalizing bs with
  | nil => rfl
  | cons a as ih =>
    cases bs with
    | nil => cases h
    | cons b bs => rw [mergeAll, ih (Nat.succ.inj h), List.zip_cons_cons, List.mapM_cons]

theorem mergeEach_eq_mapM (cs : List Interface) (e : Interface) :
    mergeEach cs e = cs.mapM (merge · e) :=
  eq_mapM_of_cons (mergeEach · e) rfl (fun _ _ => rfl) cs

theorem of_mergeAll {as bs ms : List Interface} (hl : as.length = bs.length)
    (h : mergeAll as bs = .ok ms) : ms.length = as.length ∧
      ∀ (k : Nat) a b, as[k]? = some a → bs[k]? = some b →
        ∃ m, ms[k]? = some m ∧ a.merge b = .ok m := by
  rw [mergeAll_eq_mapM hl, mapM_eq_ok, List.length_zip, ← hl, Nat.min_self] at h
  exact ⟨h.1, fun k a b ha hb => h.2 k (a, b) (List.getElem?_zip_eq_some.mpr ⟨ha, hb⟩)⟩

section
variable {l l' : Option String} {e f m : Interface} {as bs cs : List Interface}

theorem merge_rest_rest_eq_ok : (rest l e).merge (.rest l' f) = .ok m ↔
    ∃ n, e.merge f = .ok n ∧ .rest (l <|> l') n = m := by
  rw [merge, map_eq_ok]

theorem merge_rest_collection_eq_ok : (rest l e).merge (.collection l' cs) = .ok m ↔
    ∃ ms, cs.mapM e.merge = .ok ms ∧ .collection (l <|> l') ms = m := by
  rw [merge, map_eq_ok]

theorem merge_collection_rest_eq_ok : (collection l cs).merge (.rest l' e) = .ok m ↔
    ∃ ms, cs.mapM (merge · e) = .ok ms ∧ .collection (l <|> l') ms = m := by
  rw [merge, map_eq_ok, mergeEach_eq_mapM]

theorem merge_collection_collection_eq_ok : (collection l as).merge (.collection l' bs) = .ok m ↔
    as.length = bs.length ∧
      ∃ ms, mergeAll as bs = .ok ms ∧ .collection (l <|> l') ms = m := by
  rw [merge]
  split
  next hl => rw [map_eq_ok, and_iff_right hl]
  next hl => exact ⟨fun h => (by cases h), fun h => absurd h.1 hl⟩

end

theorem Agree.merge {a b : Interface} (h : a.Agree b) : ∃ m, a.merge b = .ok m := by
  induction h with
  | anyLeft l b => exact ⟨b, by rw [Interface.merge]⟩
  | anyRight a l => cases a <;> simp [Interface.merge]
  | noneLeft l b => cases b <;> simp [Interface.merge]
  | noneRight a l => cases a <;> simp [Interface.merge]
  | bit l m => simp [Interface.merge]
  | @collection l m as bs length _ ih =>
    have hpairs : ∀ x ∈ as.zip bs, ∃ m, x.1.merge x.2 = .ok m := by
      intro x hx
      obtain ⟨k, hk⟩ := List.getElem?_of_mem hx
      obtain ⟨ha, hb⟩ := List.getElem?_zip_eq_some.mp hk
      exact ih k x.1 x.2 ha hb
    obtain ⟨ms, hms⟩ := mapM_isOk hpairs
    rw [← mergeAll_eq_mapM length] at hms
    exact ⟨_, merge_collection_collection_eq_ok.mpr ⟨length, ms, hms, rfl⟩⟩
  | restCollection l m _ ih =>
    obtain ⟨ms, hms⟩ := mapM_isOk ih
    exact ⟨_, merge_rest_collection_eq_ok.mpr ⟨ms, hms, rfl⟩⟩
  | collectionRest l m _ ih =>
    obtain ⟨ms, hms⟩ := mapM_isOk ih
    exact ⟨_, merge_collection_rest_eq_ok.mpr ⟨ms, hms, rfl⟩⟩
  | rest l m _ ih =>
    obtain ⟨n, hn⟩ := ih
    exact ⟨_, merge_rest_rest_eq_ok.mpr ⟨n, hn, rfl⟩⟩

theorem irreconcilable_of_merge {a b : Interface} {e : TypeFault} (h : a.merge b = .error e) :
    ∃ i j, e = .irreconcilable i j := by
  induction a generalizing b with
  | any l => simp [Interface.merge] at h
  | none l => cases b <;> simp [Interface.merge] at h
  | bit l =>
    cases b <;> simp [Interface.merge] at h <;> exact ⟨_, _, h.symm⟩
  | rest l a ih =>
    cases b with
    | any m | none m => simp [Interface.merge] at h
    | bit m =>
      cases h
      exact ⟨_, _, rfl⟩
    | rest m b =>
      rw [merge, map_eq_error] at h
      exact ih h
    | collection m cs =>
      rw [merge, map_eq_error] at h
      obtain ⟨c, -, hc⟩ := mapM_eq_error h
      exact ih hc
  | collection l as ih =>
    cases b with
    | any m | none m => simp [Interface.merge] at h
    | bit m =>
      cases h
      exact ⟨_, _, rfl⟩
    | rest m b =>
      rw [merge, map_eq_error, mergeEach_eq_mapM] at h
      obtain ⟨a, ha, hab⟩ := mapM_eq_error h
      exact ih a ha hab
    | collection m bs =>
      rw [merge] at h
      split at h
      next hl =>
        rw [map_eq_error, mergeAll_eq_mapM hl] at h
        obtain ⟨x, hx, hab⟩ := mapM_eq_error h
        exact ih x.1 (List.of_mem_zip hx).1 hab
      next =>
        cases h
        exact ⟨_, _, rfl⟩

/-- How a merge comes about, up to labels: one side yields, or the parts are merged. -/
inductive Merged : Interface → Interface → Interface → Prop where
  | any (l : Option String) (b : Interface) : Merged (.any l) b b
  | keep {a b : Interface} (h : b.isAny ∨ b.isNone ∨ a.isNone ∨ a.isBit ∧ b.isBit) : Merged a b a
  | collection (l l' l'' : Option String) {as bs ms : List Interface}
    (length : as.length = bs.length) (count : ms.length = as.length)
    (each : ∀ (k : Nat) a b m, as[k]? = some a → bs[k]? = some b → ms[k]? = some m →
      Merged a b m) : Merged (.collection l as) (.collection l' bs) (.collection l'' ms)
  | restCollection (l l' l'' : Option String) {e : Interface} {cs ms : List Interface}
    (count : ms.length = cs.length)
    (each : ∀ (k : Nat) c m, cs[k]? = some c → ms[k]? = some m → Merged e c m) :
    Merged (.rest l e) (.collection l' cs) (.collection l'' ms)
  | collectionRest (l l' l'' : Option String) {e : Interface} {cs ms : List Interface}
    (count : ms.length = cs.length)
    (each : ∀ (k : Nat) c m, cs[k]? = some c → ms[k]? = some m → Merged c e m) :
    Merged (.collection l cs) (.rest l' e) (.collection l'' ms)
  | rest (l l' l'' : Option String) {e f m : Interface} (h : Merged e f m) :
    Merged (.rest l e) (.rest l' f) (.rest l'' m)

theorem merged_of_merge {a b m : Interface} (h : a.merge b = .ok m) : Merged a b m := by
  induction a generalizing b m with
  | any l =>
    rw [merge] at h
    cases h
    exact .any l b
  | bit l =>
    cases b <;> simp [merge] at h <;> subst h <;> exact .keep (by simp [isAny, isNone, isBit])
  | none l =>
    cases b <;> simp [merge] at h <;> subst h <;> exact .keep (by simp [isNone])
  | rest l e ih =>
    cases b with
    | bit l' => simp [merge] at h
    | any l' | none l' =>
      simp only [merge, Except.ok.injEq] at h
      subst h
      exact .keep (by simp [isAny, isNone])
    | rest l' f =>
      obtain ⟨m', hm, rfl⟩ := merge_rest_rest_eq_ok.mp h
      exact .rest l l' _ (ih hm)
    | collection l' cs =>
      obtain ⟨ms, hm, rfl⟩ := merge_rest_collection_eq_ok.mp h
      obtain ⟨hl, hall⟩ := mapM_eq_ok.mp hm
      refine .restCollection l l' _ hl fun k c m hc hk => ?_
      obtain ⟨m', hk', hcm⟩ := hall k c hc
      cases hk.symm.trans hk'
      exact ih hcm
  | collection l as ih =>
    cases b with
    | bit l' => simp [merge] at h
    | any l' | none l' =>
      simp only [merge, Except.ok.injEq] at h
      subst h
      exact .keep (by simp [isAny, isNone])
    | rest l' e =>
      obtain ⟨ms, hm, rfl⟩ := merge_collection_rest_eq_ok.mp h
      obtain ⟨hl, hall⟩ := mapM_eq_ok.mp hm
      refine .collectionRest l l' _ hl fun k c m hc hk => ?_
      obtain ⟨m', hk', hcm⟩ := hall k c hc
      cases hk.symm.trans hk'
      exact ih c (List.mem_of_getElem? hc) hcm
    | collection l' bs =>
      obtain ⟨hl, ms, hm, rfl⟩ := merge_collection_collection_eq_ok.mp h
      obtain ⟨hlm, hall⟩ := of_mergeAll hl hm
      refine .collection l l' _ hl hlm fun k a b m ha hb hk => ?_
      obtain ⟨m', hk', hab⟩ := hall k a b ha hb
      cases hk.symm.trans hk'
      exact ih a (List.mem_of_getElem? ha) hab

theorem Merged.agree {a b m : Interface} (h : Merged a b m) : m.Agree a ∧ m.Agree b := by
  induction h with
  | any l b => exact ⟨.anyRight b l, .refl b⟩
  | @keep a b h =>
    refine ⟨.refl a, ?_⟩
    obtain h | h | h | ⟨ha, hb⟩ := h
    · cases b <;> simp [isAny] at h
      exact .anyRight a _
    · cases b <;> simp [isNone] at h
      exact .noneRight a _
    · cases a <;> simp [isNone] at h
      exact .noneLeft _ b
    · cases a <;> simp [isBit] at ha
      cases b <;> simp [isBit] at hb
      exact .bit _ _
  | @collection l l' l'' as bs ms length count _ ih =>
    constructor
    · refine .collection l'' l count fun k m a hm ha => ?_
      have hb := List.getElem?_eq_getElem (length ▸ (List.getElem?_eq_some_iff.mp ha).1)
      exact (ih k a _ m ha hb hm).1
    · refine .collection l'' l' (count.trans length) fun k m b hm hb => ?_
      have ha := List.getElem?_eq_getElem (length ▸ (List.getElem?_eq_some_iff.mp hb).1)
      exact (ih k _ b m ha hb hm).2
  | @restCollection l l' l'' e cs ms count _ ih =>
    constructor
    · refine .collectionRest l'' l fun m hm => ?_
      obtain ⟨k, hk⟩ := List.getElem?_of_mem hm
      have hc := List.getElem?_eq_getElem (count ▸ (List.getElem?_eq_some_iff.mp hk).1)
      exact (ih k _ m hc hk).1
    · exact .collection l'' l' count fun k m c hm hc => (ih k c m hc hm).2
  | @collectionRest l l' l'' e cs ms count _ ih =>
    constructor
    · exact .collection l'' l count fun k m c hm hc => (ih k c m hc hm).1
    · refine .collectionRest l'' l' fun m hm => ?_
      obtain ⟨k, hk⟩ := List.getElem?_of_mem hm
      have hc := List.getElem?_eq_getElem (count ▸ (List.getElem?_eq_some_iff.mp hk).1)
      exact (ih k _ m hc hk).2
  | rest l l' l'' _ ih => exact ⟨.rest l'' l ih.1, .rest l'' l' ih.2⟩

theorem Merged.sides {a b m : Interface} (h : Merged a b m) : a.Agree b := by
  induction h with
  | any l b => exact .anyLeft l b
  | @keep a b h => exact (Merged.keep h).agree.2
  | @collection l l' l'' as bs ms length count _ ih =>
    refine .collection l l' length fun k a b ha hb => ?_
    have hlt : k < ms.length := count ▸ (List.getElem?_eq_some_iff.mp ha).1
    exact ih k a b _ ha hb (List.getElem?_eq_getElem hlt)
  | @restCollection l l' l'' e cs ms count _ ih =>
    refine .restCollection l l' fun c hc => ?_
    obtain ⟨k, hk⟩ := List.getElem?_of_mem hc
    have hlt : k < ms.length := count ▸ (List.getElem?_eq_some_iff.mp hk).1
    exact ih k c _ hk (List.getElem?_eq_getElem hlt)
  | @collectionRest l l' l'' e cs ms count _ ih =>
    refine .collectionRest l l' fun c hc => ?_
    obtain ⟨k, hk⟩ := List.getElem?_of_mem hc
    have hlt : k < ms.length := count ▸ (List.getElem?_eq_some_iff.mp hk).1
    exact ih k c _ hk (List.getElem?_eq_getElem hlt)
  | rest l l' _ _ ih => exact .rest l l' ih

/-- A merge succeeds exactly if its sides agree. -/
theorem agree_iff_merge {a b : Interface} : a.Agree b ↔ ∃ m, a.merge b = .ok m :=
  ⟨Agree.merge, fun ⟨_, h⟩ => (merged_of_merge h).sides⟩

theorem merge_of_isAny {a : Interface} (h : a.isAny) (b : Interface) : a.merge b = .ok b := by
  cases a with
  | any l => rw [merge]
  | _ => cases h

theorem merge_isAny (a : Interface) {b : Interface} (h : b.isAny) :
    ∃ m, a.merge b = .ok m ∧ m.sameShape a := by
  cases b with
  | any l => cases a <;> simp [merge, sameShape_iff, bare]
  | _ => cases h

theorem merge_bare {a b m : Interface} (h : a.merge b = .ok m) :
    a.bare.merge b.bare = .ok m.bare := by
  induction a generalizing b m with
  | any l =>
    rw [merge] at h
    cases h
    rw [bare, merge]
  | bit l | none l => cases b <;> simp [merge] at h <;> subst h <;> simp [bare, merge]
  | rest l e ih =>
    cases b with
    | bit l' => simp [merge] at h
    | any l' | none l' =>
      simp only [merge, Except.ok.injEq] at h
      subst h
      simp [bare, merge]
    | rest l' f =>
      obtain ⟨n, hn, rfl⟩ := merge_rest_rest_eq_ok.mp h
      exact merge_rest_rest_eq_ok.mpr ⟨n.bare, ih hn, rfl⟩
    | collection l' cs =>
      obtain ⟨ms, hm, rfl⟩ := merge_rest_collection_eq_ok.mp h
      simp only [bare, bareAll_eq_map]
      exact merge_rest_collection_eq_ok.mpr ⟨ms.map bare, mapM_image hm fun c _ m => ih, rfl⟩
  | collection l as ih =>
    cases b with
    | bit l' => simp [merge] at h
    | any l' | none l' =>
      simp only [merge, Except.ok.injEq] at h
      subst h
      simp [bare, merge]
    | rest l' e =>
      obtain ⟨ms, hm, rfl⟩ := merge_collection_rest_eq_ok.mp h
      simp only [bare, bareAll_eq_map]
      exact merge_collection_rest_eq_ok.mpr
        ⟨ms.map bare, mapM_image hm fun a ha m => ih a ha, rfl⟩
    | collection l' bs =>
      obtain ⟨hl, ms, hm, rfl⟩ := merge_collection_collection_eq_ok.mp h
      simp only [bare, bareAll_eq_map]
      refine merge_collection_collection_eq_ok.mpr ⟨by simpa using hl, ms.map bare, ?_, rfl⟩
      rw [mergeAll_eq_mapM hl] at hm
      rw [mergeAll_eq_mapM (by simpa using hl), List.zip_map]
      exact mapM_image hm fun x hx m => ih x.1 (List.of_mem_zip hx).1

theorem merge_of_sameShape {a a' b b' m : Interface} (ha : a.sameShape a' = true)
    (hb : b.sameShape b' = true) (h : a.merge b = .ok m) :
    ∃ m', a'.merge b' = .ok m' ∧ m.sameShape m' = true := by
  have hagree := (merged_of_merge h).sides
  obtain ⟨m', h'⟩ := ((hagree.of_bare (sameShape_iff.mp ha)).of_sameShape hb).merge
  have hbare := merge_bare h
  rw [sameShape_iff.mp ha, sameShape_iff.mp hb, merge_bare h'] at hbare
  exact ⟨m', h', sameShape_iff.mpr (Except.ok.inj hbare).symm⟩

/-- The child of a merge is, but for its label, the merge of the children. -/
theorem merge_child {a b m b' m' : Interface} (h : a.merge b = .ok m) {k : Nat}
    (hb : b.child? k = some b') (hm : m.child? k = some m') :
    ∃ a' n, a.child? k = some a' ∧ a'.merge b' = .ok n ∧ n.sameShape m' = true := by
  cases a with
  | any l =>
    rw [merge] at h
    cases h
    cases hb.symm.trans hm
    exact ⟨_, b', rfl, by rw [merge], sameShape_refl b'⟩
  | bit l | none l => cases b <;> simp [merge] at h <;> subst h <;> cases hm
  | rest l e =>
    cases b with
    | bit l' | none l' => cases hb
    | any l' =>
      cases h
      cases hb
      cases hm
      obtain ⟨n, hn, hshape⟩ := merge_isAny m' (b := .any Option.none) rfl
      exact ⟨m', n, rfl, hn, hshape⟩
    | rest l' f =>
      obtain ⟨n, hn, rfl⟩ := merge_rest_rest_eq_ok.mp h
      cases hb
      cases hm
      exact ⟨e, m', rfl, hn, sameShape_refl m'⟩
    | collection l' cs =>
      obtain ⟨ms, hms, rfl⟩ := merge_rest_collection_eq_ok.mp h
      obtain ⟨n, hk, hn⟩ := (mapM_eq_ok.mp hms).2 k b' hb
      cases hm.symm.trans hk
      exact ⟨e, m', rfl, hn, sameShape_refl m'⟩
  | collection l as =>
    cases b with
    | bit l' | none l' => cases hb
    | any l' =>
      cases h
      cases hb
      obtain ⟨n, hn, hshape⟩ := merge_isAny m' (b := .any Option.none) rfl
      exact ⟨m', n, hm, hn, hshape⟩
    | rest l' f =>
      obtain ⟨ms, hms, rfl⟩ := merge_collection_rest_eq_ok.mp h
      obtain ⟨hl, hall⟩ := mapM_eq_ok.mp hms
      have ha := List.getElem?_eq_getElem (hl ▸ (List.getElem?_eq_some_iff.mp hm).1)
      obtain ⟨n, hk, hn⟩ := hall k _ ha
      cases hm.symm.trans hk
      cases hb
      exact ⟨_, m', ha, hn, sameShape_refl m'⟩
    | collection l' bs =>
      obtain ⟨hl, ms, hms, rfl⟩ := merge_collection_collection_eq_ok.mp h
      have ha := List.getElem?_eq_getElem (hl ▸ (List.getElem?_eq_some_iff.mp hb).1)
      obtain ⟨n, hk, hn⟩ := (of_mergeAll hl hms).2 k _ b' ha hb
      cases hm.symm.trans hk
      exact ⟨_, m', ha, hn, sameShape_refl m'⟩

def childAt? (i : Interface) : Path → Option Interface
  | [] => some i
  | k :: path => i.child? k >>= (·.childAt? path)

theorem childAt?_bare (i : Interface) (path : Path) :
    i.bare.childAt? path = (i.childAt? path).map bare := by
  induction path generalizing i with
  | nil => rfl
  | cons k path ih =>
    rw [childAt?, childAt?, bare_child?]
    cases i.child? k with
    | none => rfl
    | some c => exact ih c

theorem childAt?_sameShape {i j c : Interface} (h : i.sameShape j) {path : Path}
    (hc : i.childAt? path = some c) : ∃ e, j.childAt? path = some e ∧ c.sameShape e := by
  have hbare := childAt?_bare j path
  rw [← sameShape_iff.mp h, childAt?_bare, hc, Option.map_some] at hbare
  obtain ⟨e, he, hce⟩ := Option.map_eq_some_iff.mp hbare.symm
  exact ⟨e, he, sameShape_iff.mpr hce.symm⟩

theorem merge_childAt {a b m b' m' : Interface} (h : a.merge b = .ok m) {path : Path}
    (hb : b.childAt? path = some b') (hm : m.childAt? path = some m') :
    ∃ a' n, a.childAt? path = some a' ∧ a'.merge b' = .ok n ∧ n.sameShape m' = true := by
  induction path generalizing a b m m' with
  | nil =>
    cases hb
    cases hm
    exact ⟨a, m, rfl, h, sameShape_refl m⟩
  | cons k path ih =>
    obtain ⟨b₁, hb₁, hb⟩ := Option.bind_eq_some_iff.mp hb
    obtain ⟨m₁, hm₁, hm⟩ := Option.bind_eq_some_iff.mp hm
    obtain ⟨a₁, n₁, ha₁, h₁, hshape₁⟩ := merge_child h hb₁ hm₁
    obtain ⟨m₂, hm₂, hshape₂⟩ := childAt?_sameShape (sameShape_symm hshape₁) hm
    obtain ⟨a', n, ha', hn, hshape⟩ := ih h₁ hb hm₂
    refine ⟨a', n, ?_, hn, sameShape_trans hshape (sameShape_symm hshape₂)⟩
    rw [childAt?, ha₁]
    exact ha'

end Interface
end TickCircuit
