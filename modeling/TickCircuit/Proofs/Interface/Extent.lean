import TickCircuit.Proofs.Interface.Absorption
import TickCircuit.Proofs.Interface.Accepts
/-!
What an interface accepts, as a measure of it. An interface without `none` is, but for labels, what
it accepts (`sameShape_of_accepts`). Main statements: a sink that admits a source which is known
down to its bits accepts all that the source does, and any other sink that does so can at least be
merged with it (`admitted_source_fits`); and as a merge accepts what both of its sides do, merging
has the laws of intersection, labels aside (`merge_algebra`).
-/
namespace TickCircuit.Interface

theorem exists_acceptsAll {cs : List Interface} (h : ∀ c ∈ cs, ∃ v, c.accepts v = true) :
    ∃ vs, acceptsAll cs vs = true := by
  induction cs with
  | nil => exact ⟨[], rfl⟩
  | cons c cs ih =>
    obtain ⟨v, hv⟩ := h c List.mem_cons_self
    obtain ⟨vs, hvs⟩ := ih fun d hd => h d (List.mem_cons_of_mem _ hd)
    exact ⟨v :: vs, by rw [acceptsAll, hv, hvs]; rfl⟩

theorem Full.exists_accepts {i : Interface} (h : i.Full) : ∃ v, i.accepts v = true := by
  induction h with
  | bit l => exact ⟨.low, rfl⟩
  | any l => exact ⟨.low, rfl⟩
  | rest l _ _ => exact ⟨.bits [], rfl⟩
  | collection l _ ih =>
    obtain ⟨vs, hvs⟩ := exists_acceptsAll ih
    exact ⟨.collection Option.none vs, by rwa [accepts]⟩

theorem Concrete.full {i : Interface} (h : i.Concrete) : i.Full := by
  induction h with
  | bit l => exact .bit l
  | collection l _ ih => exact .collection l ih

theorem acceptsAll_set {cs : List Interface} {vs : List Value} (h : acceptsAll cs vs = true)
    {k : Nat} {c : Interface} (hc : cs[k]? = some c) (v : Value) :
    acceptsAll cs (vs.set k v) = c.accepts v := by
  induction cs generalizing vs k with
  | nil => cases hc
  | cons d cs ih =>
    cases vs with
    | nil => cases h
    | cons w vs =>
      rw [acceptsAll, Bool.and_eq_true] at h
      cases k with
      | zero =>
        cases hc
        rw [List.set_cons_zero, acceptsAll, h.2, Bool.and_true]
      | succ k => rw [List.set_cons_succ, acceptsAll, h.1, Bool.true_and, ih h.2 hc]

/-- Interfaces that accept the same collections of children have as many children, and the children
accept the same, each by each. -/
theorem of_acceptsAll_eq {cs ds : List Interface} (hcs : ∃ vs, acceptsAll cs vs = true)
    (h : ∀ vs, acceptsAll cs vs = acceptsAll ds vs) : cs.length = ds.length ∧
      ∀ (k : Nat) c d, cs[k]? = some c → ds[k]? = some d → ∀ v, c.accepts v = d.accepts v := by
  obtain ⟨vs, hvs⟩ := hcs
  have hds : acceptsAll ds vs = true := (h vs).symm.trans hvs
  refine ⟨(length_of_acceptsAll hvs).trans (length_of_acceptsAll hds).symm, fun k c d hc hd v => ?_⟩
  calc c.accepts v = acceptsAll cs (vs.set k v) := (acceptsAll_set hvs hc v).symm
    _ = acceptsAll ds (vs.set k v) := h _
    _ = d.accepts v := acceptsAll_set hds hd v

theorem Full.rest_ne_collection {e : Interface} (he : e.Full) (cs : List Interface) :
    ∃ vs : List Value, vs.all e.accepts ≠ acceptsAll cs vs := by
  obtain ⟨v, hv⟩ := he.exists_accepts
  cases cs with
  | nil => exact ⟨[v], by simp [hv, acceptsAll]⟩
  | cons c cs => exact ⟨[], by simp [acceptsAll]⟩

theorem sameShape_of_accepts {a b : Interface} (ha : a.Full) (hb : b.Full)
    (h : ∀ v, a.accepts v = b.accepts v) : a.sameShape b = true := by
  induction ha generalizing b with
  | bit l =>
    have hlow := h .low
    have hempty := h (.bits [])
    cases hb with
    | bit m => rfl
    | any m => cases hempty
    | rest m _ | collection m _ => cases hlow
  | any l =>
    have hlow := h .low
    have hempty := h (.bits [])
    cases hb with
    | any m => rfl
    | bit m => cases hempty
    | rest m _ | collection m _ => cases hlow
  | @rest l e he ih =>
    have hlow := h .low
    cases hb with
    | bit m | any m => cases hlow
    | @rest m f hf =>
      rw [sameShape]
      refine ih hf fun v => ?_
      have hsingle := h (.collection Option.none [v])
      simpa [accepts] using hsingle
    | @collection m ds hds =>
      obtain ⟨vs, hvs⟩ := he.rest_ne_collection ds
      exact absurd (h (.collection Option.none vs)) hvs
  | @collection l cs hcs ih =>
    have hlow := h .low
    cases hb with
    | bit m | any m => cases hlow
    | @rest m f hf =>
      obtain ⟨vs, hvs⟩ := hf.rest_ne_collection cs
      exact absurd (h (.collection Option.none vs)).symm hvs
    | @collection m ds hds =>
      have hsample := exists_acceptsAll fun c hc => (hcs c hc).exists_accepts
      obtain ⟨hlength, heach⟩ :=
        of_acceptsAll_eq hsample fun vs => h (.collection Option.none vs)
      rw [sameShape, sameShapes_iff]
      refine ⟨hlength, fun k c d hc hd => ?_⟩
      exact ih c (List.mem_of_getElem? hc) (hds d (List.mem_of_getElem? hd)) (heach k c d hc hd)

theorem Merged.full {a b m : Interface} (h : Merged a b m) (ha : a.Full) (hb : b.Full) :
    m.Full := by
  induction h with
  | any l b => exact hb
  | keep h => exact ha
  | @collection l l' l'' as bs ms length count _ ih =>
    cases ha with
    | collection _ lefts =>
      cases hb with
      | collection _ rights =>
        refine .collection l'' fun m hm => ?_
        obtain ⟨k, hk⟩ := List.getElem?_of_mem hm
        have hlt : k < as.length := count ▸ (List.getElem?_eq_some_iff.mp hk).1
        exact ih k _ _ m (List.getElem?_eq_getElem hlt) (List.getElem?_eq_getElem (length ▸ hlt)) hk
          (lefts _ (List.getElem_mem hlt)) (rights _ (List.getElem_mem (length ▸ hlt)))
  | @restCollection l l' l'' e cs ms count _ ih =>
    cases ha with
    | rest _ element =>
      cases hb with
      | collection _ rights =>
        refine .collection l'' fun m hm => ?_
        obtain ⟨k, hk⟩ := List.getElem?_of_mem hm
        have hlt : k < cs.length := count ▸ (List.getElem?_eq_some_iff.mp hk).1
        exact ih k _ m (List.getElem?_eq_getElem hlt) hk element (rights _ (List.getElem_mem hlt))
  | @collectionRest l l' l'' e cs ms count _ ih =>
    cases ha with
    | collection _ lefts =>
      cases hb with
      | rest _ element =>
        refine .collection l'' fun m hm => ?_
        obtain ⟨k, hk⟩ := List.getElem?_of_mem hm
        have hlt : k < cs.length := count ▸ (List.getElem?_eq_some_iff.mp hk).1
        exact ih k _ m (List.getElem?_eq_getElem hlt) hk (lefts _ (List.getElem_mem hlt)) element
  | rest l l' l'' _ ih =>
    cases ha with
    | rest _ left =>
      cases hb with
      | rest _ right => exact .rest l'' (ih left right)

/-- What accepts a value of an interface that is known down to its bits agrees with it. -/
theorem Concrete.agree_of_accepts {sink source : Interface} (hsource : source.Concrete) {v : Value}
    (hv : source.accepts v = true) (hw : sink.accepts v = true) : sink.Agree source := by
  induction hsource generalizing sink v with
  | bit l =>
    cases v with
    | collection m vs => cases hv
    | bit m b =>
      cases sink with
      | bit l' => exact .bit l' l
      | any l' => exact .anyLeft l' _
      | _ => cases hw
  | @collection l cs _ ih =>
    cases v with
    | bit m b => cases hv
    | collection m vs =>
      rw [accepts, acceptsAll_iff] at hv
      obtain ⟨hlength, hparts⟩ := hv
      have hpart : ∀ (k : Nat) c, cs[k]? = some c → ∃ w, vs[k]? = some w ∧ c.accepts w = true := by
        intro k c hc
        have hlt : k < vs.length := hlength ▸ (List.getElem?_eq_some_iff.mp hc).1
        have hk := List.getElem?_eq_getElem hlt
        exact ⟨_, hk, hparts k c _ hc hk⟩
      cases sink with
      | bit l' | none l' => cases hw
      | any l' => exact .anyLeft l' _
      | rest l' e =>
        rw [accepts, List.all_eq_true] at hw
        refine .restCollection l' l fun c hc => ?_
        obtain ⟨k, hk⟩ := List.getElem?_of_mem hc
        obtain ⟨w, hw', haccepts⟩ := hpart k c hk
        exact ih c hc haccepts (hw w (List.mem_of_getElem? hw'))
      | collection l' ds =>
        rw [accepts, acceptsAll_iff] at hw
        refine .collection l' l (hw.1.trans hlength.symm) fun k d c hd hc => ?_
        obtain ⟨w, hw', haccepts⟩ := hpart k c hc
        exact ih c (List.mem_of_getElem? hc) haccepts (hw.2 k d w hd hw')

theorem sameShape_of_merge {a b m n : Interface} (ha : a.Full) (hb : b.Full) (hn : n.Full)
    (h : a.merge b = .ok m)
    (hboth : ∀ v, n.accepts v = true ↔ a.accepts v = true ∧ b.accepts v = true) :
    m.sameShape n = true := by
  have hmerged := merged_of_merge h
  refine sameShape_of_accepts (hmerged.full ha hb) hn fun v => ?_
  rw [Bool.eq_iff_iff, hboth]
  exact hmerged.accepts_iff hb v

/-- A sink that admits a source which is known down to its bits accepts all that the source does.
The sinks that accept as much are those that can be merged with the source, which is then all that
the merge comes to. -/
theorem admitted_source_fits {sink source : Interface} (hsink : sink.Full)
    (hsource : source.Concrete) :
    (sink.admits source = true → ∀ v, source.accepts v = true → sink.accepts v = true) ∧
    ((∀ v, source.accepts v = true → sink.accepts v = true) ↔
      ∃ m, sink.merge source = .ok m ∧ m.sameShape source = true) := by
  refine ⟨fun h v => accepts_of_admits hsink hsource h, fun h => ?_, fun ⟨m, hm, _⟩ v => ?_⟩
  · obtain ⟨v, hv⟩ := hsource.full.exists_accepts
    obtain ⟨m, hm⟩ := (hsource.agree_of_accepts hv (h v hv)).merge
    refine ⟨m, hm, sameShape_of_merge hsink hsource.full hsource.full hm fun v => ?_⟩
    exact ⟨fun hv => ⟨h v hv, hv⟩, fun hv => hv.2⟩
  · exact (agree_iff_merge.mpr ⟨m, hm⟩).accepts hsink hsource

def grid : Interface :=
  .collection (some "grid") [.copies 2 (.bit Option.none),
    .collection (some "second") [.bit (some "left"), .bit Option.none]]

/-- Any number of rows takes in two of them, since their labels do not matter. -/
theorem admitted_source_fits_grid : rows.Full ∧ grid.Concrete ∧ rows.admits grid = true ∧
    ∀ v, grid.accepts v = true → rows.accepts v = true := by
  have hfull : rows.Full := .rest _ (.rest _ (.any _))
  have hbits : ∀ l m n, Concrete (.collection l [.bit m, .bit n]) := by
    intro l m n
    refine .collection l fun c hc => ?_
    obtain rfl | hc := List.mem_cons.mp hc
    · exact .bit m
    · cases List.mem_singleton.mp hc
      exact .bit n
  have hconcrete : grid.Concrete := by
    refine .collection _ fun c hc => ?_
    obtain rfl | hc := List.mem_cons.mp hc
    · exact hbits _ _ _
    · cases List.mem_singleton.mp hc
      exact hbits _ _ _
  exact ⟨hfull, hconcrete, rfl, (admitted_source_fits hfull hconcrete).1 rfl⟩

/-- The laws of merging. An interface merged with itself stays as it is, and so does a merge that is
merged with its right side again, labels included. Where nothing is `none`, the order of two sides
decides on the labels alone, and so does the grouping of three, provided that both groupings can be
merged. -/
theorem merge_algebra :
    (∀ a : Interface, a.merge a = .ok a) ∧
    (∀ a b m : Interface, a.merge b = .ok m → m.merge b = .ok m) ∧
    (∀ a b : Interface, a.Full → b.Full →
      (∃ e e', a.merge b = .error e ∧ b.merge a = .error e') ∨
        ∃ m n, a.merge b = .ok m ∧ b.merge a = .ok n ∧ m.sameShape n = true) ∧
    ∀ a b c : Interface, a.Full → b.Full → c.Full → ∀ ab bc m n, a.merge b = .ok ab →
      ab.merge c = .ok m → b.merge c = .ok bc → a.merge bc = .ok n → m.sameShape n = true := by
  refine ⟨merge_self, fun a b m h => (merge_absorbs h).2, fun a b ha hb => ?_,
    fun a b c ha hb hc ab bc m n hab habc hbc habc' => ?_⟩
  · cases hm : a.merge b with
    | error e =>
      cases hn : b.merge a with
      | error e' => exact .inl ⟨e, e', rfl, rfl⟩
      | ok n =>
        obtain ⟨m, hm'⟩ := (agree_iff_merge.mpr ⟨n, hn⟩).symm.merge
        cases hm.symm.trans hm'
    | ok m =>
      obtain ⟨n, hn⟩ := (agree_iff_merge.mpr ⟨m, hm⟩).symm.merge
      have hother := merged_of_merge hn
      refine .inr ⟨m, n, rfl, hn, sameShape_of_merge ha hb (hother.full hb ha) hm fun v => ?_⟩
      exact (hother.accepts_iff ha v).trans and_comm
  · have hfirst := merged_of_merge hab
    have hsecond := merged_of_merge hbc
    have hother := merged_of_merge habc'
    have hright := hsecond.full hb hc
    refine sameShape_of_merge (hfirst.full ha hb) hc (hother.full ha hright) habc fun v => ?_
    calc n.accepts v = true ↔ a.accepts v = true ∧ bc.accepts v = true :=
          hother.accepts_iff hright v
      _ ↔ a.accepts v = true ∧ b.accepts v = true ∧ c.accepts v = true := by
          rw [hsecond.accepts_iff hc v]
      _ ↔ (a.accepts v = true ∧ b.accepts v = true) ∧ c.accepts v = true := and_assoc.symm
      _ ↔ ab.accepts v = true ∧ c.accepts v = true := by rw [hfirst.accepts_iff hb v]

def openPair : Interface := .collection (some "pair") [.any Option.none, .bit (some "second")]

def bitRow : Interface := .rest (some "row") (.bit (some "bit"))

/-- What is open in a pair becomes a bit by way of a row. Which of the two comes first can be told
from the labels alone, and so it can where the row comes in on both sides of the pair. -/
theorem merge_algebra_pair : openPair.Full ∧ bitRow.Full ∧ ∃ m n k,
    openPair.merge bitRow = .ok m ∧ bitRow.merge openPair = .ok n ∧ m ≠ n ∧ m.sameShape n = true ∧
      m.merge bitRow = .ok m ∧ n.merge bitRow = .ok k ∧ bitRow.merge m = .ok n ∧
      k.sameShape n = true := by
  have hpair : openPair.Full := by
    refine .collection _ fun c hc => ?_
    obtain rfl | hc := List.mem_cons.mp hc
    · exact .any _
    · cases List.mem_singleton.mp hc
      exact .bit _
  have hrow : bitRow.Full := .rest _ (.bit _)
  obtain ⟨-, hagain, horder, hgroup⟩ := merge_algebra
  obtain ⟨e, -, he, -⟩ | ⟨m, n, hm, hn, hshape⟩ := horder openPair bitRow hpair hrow
  · cases he
  · have hagain := hagain _ _ _ hm
    have hgroup := hgroup bitRow openPair bitRow hrow hpair hrow n m
    cases hm
    cases hn
    exact ⟨hpair, hrow, _, _, _, rfl, rfl, by decide, hshape, hagain, rfl, rfl,
      hgroup _ _ rfl rfl rfl rfl⟩

end TickCircuit.Interface
