import ObjectTracking.LocalCopy.Save
import ObjectTracking.Proofs.Collection.Tracking
/-!
The server's copy of a collection. It executes the operations of a save one by one: positions are
those that the items had before the save, and what is added goes to the end. From the baseline that
a collection keeps track of, its operations make the items that are left, as they are now, followed
by the items that were added.
-/
set_option autoImplicit false

namespace ObjectTracking

/-- An item on the server in the middle of a save, with its position before the save if it had
one. -/
abbrev Held := Option Nat × Composite

namespace UpdateOp

def apply (held : List Held) : UpdateOp → List Held
  | append _ item => held ++ [(none, item)]
  | deleteItem _ n => held.filter (·.1 != some n)
  | setItem _ n item => held.map fun x => if x.1 = some n then (x.1, item) else x
  | set _ (.collection c) => c.items.map (none, ·)
  | set _ _ => []
  | delete _ => []

def execute (items : List Composite) (ops : List UpdateOp) : List Composite :=
  (ops.foldl apply (items.mapIdx fun n item => (some n, item))).map Prod.snd

theorem foldl_append (q : Property) (items : List Composite) (held : List Held) :
    (items.map (append q)).foldl apply held = held ++ items.map (none, ·) := by
  induction items generalizing held with
  | nil => simp
  | cons item items ih => simp [ih, apply]

theorem foldl_deleteItem (q : Property) (ns : List Nat) (held : List Held) :
    (ns.map (deleteItem q)).foldl apply held =
      held.filter fun x => x.1.all (!ns.contains ·) := by
  induction ns generalizing held with
  | nil => simp
  | cons n ns ih =>
    simp only [List.map_cons, List.foldl_cons, ih, apply, List.filter_filter]
    congr 1
    funext x
    cases x.1 <;> simp [bne, Bool.and_comm, Bool.beq_eq_decide_eq, eq_comm]

/-- The item that a former position holds after the items in `ms` were put in their places. -/
def replaced (ms : List (Nat × Composite)) (position : Option Nat) (item : Composite) : Composite :=
  ms.foldl (fun item m => if position = some m.1 then m.2 else item) item

theorem replaced_cons (m : Nat × Composite) (ms : List (Nat × Composite)) (position : Option Nat)
    (item : Composite) : replaced (m :: ms) position item =
      replaced ms position (if position = some m.1 then m.2 else item) := rfl

@[simp] theorem replaced_none (ms : List (Nat × Composite)) (item : Composite) :
    replaced ms none item = item := by
  induction ms with
  | nil => rfl
  | cons m ms ih => simpa [replaced_cons] using ih

theorem foldl_setItem (q : Property) (ms : List (Nat × Composite)) (held : List Held) :
    (ms.map fun m => setItem q m.1 m.2).foldl apply held =
      held.map fun x => (x.1, replaced ms x.1 x.2) := by
  induction ms generalizing held with
  | nil => simp [replaced]
  | cons m ms ih =>
    simp only [List.map_cons, List.foldl_cons, ih, apply, List.map_map, replaced]
    congr 1
    funext x
    by_cases h : x.1 = some m.1 <;> simp [h]

theorem replaced_of_mem {ms : List (Nat × Composite)} {n : Nat} {item : Composite}
    (hmem : (n, item) ∈ ms) (huniq : ∀ m ∈ ms, m.1 = n → m.2 = item) (old : Composite) :
    replaced ms (some n) old = item := by
  have keep : ∀ (l : List (Nat × Composite)), (∀ m ∈ l, m.1 = n → m.2 = item) →
      replaced l (some n) item = item := by
    intro l hl
    induction l with
    | nil => rfl
    | cons m l ih =>
      have hm : (if some n = some m.1 then m.2 else item) = item := by
        split
        · rename_i h
          exact hl m List.mem_cons_self (Option.some.inj h).symm
        · rfl
      rw [replaced_cons, hm]
      exact ih fun x hx => hl x (List.mem_cons_of_mem m hx)
  induction ms generalizing old with
  | nil => cases hmem
  | cons m ms ih =>
    rcases List.mem_cons.mp hmem with rfl | hmem
    · rw [replaced_cons, if_pos rfl]
      exact keep ms fun x hx => huniq x (List.mem_cons_of_mem _ hx)
    · exact ih hmem (fun x hx => huniq x (List.mem_cons_of_mem m hx)) _

theorem replaced_of_not_mem {ms : List (Nat × Composite)} {n : Nat}
    (h : ∀ m ∈ ms, m.1 ≠ n) (old : Composite) : replaced ms (some n) old = old := by
  induction ms with
  | nil => rfl
  | cons m ms ih =>
    have hm : ¬ some n = some m.1 := fun he => h m List.mem_cons_self (Option.some.inj he).symm
    rw [replaced_cons, if_neg hm]
    exact ih fun x hx => h x (List.mem_cons_of_mem m hx)

end UpdateOp

namespace Collection
variable {base : List Composite} {c : Collection}

theorem mem_modified_iff {n : Nat} {item : Composite} :
    (n, item) ∈ c.modified ↔
      ∃ e ∈ c.entries, e.modified = true ∧ e.origin = some n ∧ e.value = item := by
  simp only [modified, List.mem_filterMap, List.mem_filter, Option.map_eq_some_iff, Prod.mk.injEq]
  constructor
  · rintro ⟨e, ⟨he, hm⟩, m, ho, rfl, rfl⟩
    exact ⟨e, he, hm, ho, rfl⟩
  · rintro ⟨e, he, hm, ho, rfl⟩
    exact ⟨e, ⟨he, hm⟩, n, ho, rfl, rfl⟩

@[simp] theorem mem_removedPositions_iff {n : Nat} : n ∈ c.removedPositions ↔ n ∈ c.removed := by
  simp [removedPositions, List.mem_mergeSort]

/-- What the changed items leave at a former position that is not removed. -/
theorem Tracks.replaced_modified (hc : c.Tracks base) {e : Entry} {n : Nat} {old : Composite}
    (he : e ∈ c.entries) (ho : e.origin = some n) (hold : base[n]? = some old) :
    UpdateOp.replaced c.modified (some n) old = e.value := by
  cases hm : e.modified with
  | true =>
    apply UpdateOp.replaced_of_mem (mem_modified_iff.mpr ⟨e, he, hm, ho, rfl⟩)
    rintro ⟨m, item⟩ hmem rfl
    obtain ⟨e', he', _, ho', rfl⟩ := mem_modified_iff.mp hmem
    rw [hc.entry_unique he' he ho' ho]
  | false =>
    have hbase : some e.value = some old := (hc.unmodified e he n ho hm).symm.trans hold
    rw [UpdateOp.replaced_of_not_mem, Option.some.inj hbase]
    rintro ⟨m, item⟩ hmem rfl
    obtain ⟨e', he', hm', ho', rfl⟩ := mem_modified_iff.mp hmem
    rw [hc.entry_unique he' he ho' ho, hm] at hm'
    cases hm'

theorem eq_of_map_fst_eq {α β : Type} {l l' : List (α × β)} (h : l.map Prod.fst = l'.map Prod.fst)
    (hs : ∀ x ∈ l, ∀ y ∈ l', x.1 = y.1 → x.2 = y.2) : l = l' := by
  induction l generalizing l' with
  | nil => simpa using h.symm
  | cons x l ih =>
    cases l' with
    | nil => simp at h
    | cons y l' =>
      obtain ⟨hxy, ht⟩ := List.cons.inj h
      have hhead : x = y :=
        Prod.ext hxy (hs x List.mem_cons_self y List.mem_cons_self hxy)
      rw [hhead, ih ht fun a ha b hb => hs a (List.mem_cons_of_mem x ha) b
        (List.mem_cons_of_mem y hb)]

/-- The former positions that the server still has after the removals. -/
theorem Tracks.map_fst_filter (hc : c.Tracks base) :
    ((base.mapIdx fun n item => ((some n, item) : Held)).filter
      fun x => x.1.all (!c.removedPositions.contains ·)).map Prod.fst = c.origins.map some := by
  have hfst : (base.mapIdx fun n item => ((some n, item) : Held)).map Prod.fst =
      (List.range base.length).map some := by
    apply List.ext_getElem (by simp)
    intro n _ _
    simp
  have hfilter : ∀ l : List Held,
      (l.filter fun x => x.1.all (!c.removedPositions.contains ·)).map Prod.fst =
        (l.map Prod.fst).filter fun n => n.all (!c.removedPositions.contains ·) := by
    intro l
    simp [List.filter_map, Function.comp_def]
  rw [hfilter, hfst, List.filter_map, hc.origins_eq]
  congr 2
  funext n
  simp

/-- The items that are left, each with its former position, are what the server has of the baseline
after the removals and the replacements. -/
theorem Tracks.map_replaced (hc : c.Tracks base) :
    ((base.mapIdx fun n item => ((some n, item) : Held)).filter
      fun x => x.1.all (!c.removedPositions.contains ·)).map
        (fun x => (x.1, UpdateOp.replaced c.modified x.1 x.2)) =
      (c.entries.filter (·.origin.isSome)).map fun e => (e.origin, e.value) := by
  apply eq_of_map_fst_eq
  · rw [List.map_map, List.map_map]
    refine hc.map_fst_filter.trans ?_
    simp only [origins, List.map_filterMap_some_eq_filter_map_isSome, List.filter_map]
    rfl
  · intro x hx y hy hxy
    obtain ⟨⟨p, old⟩, hold, rfl⟩ := List.mem_map.mp hx
    obtain ⟨e, he, rfl⟩ := List.mem_map.mp hy
    obtain ⟨n, hn, heq⟩ := List.mem_mapIdx.mp (List.mem_of_mem_filter hold)
    obtain ⟨rfl, rfl⟩ := Prod.mk.inj heq
    exact hc.replaced_modified (List.mem_of_mem_filter he) hxy.symm (List.getElem?_eq_getElem hn)

/-- The operations for the changed items bring the server from the baseline to the items that are
left of it, followed by the items that were added. -/
theorem Tracks.execute_itemOps (hc : c.Tracks base) (q : Property) :
    UpdateOp.execute base (LocalCopy.itemOps q c) = c.kept ++ c.added := by
  have hadded : (c.added.map fun item => ((none, item) : Held)).filter
      (fun x => x.1.all (!c.removedPositions.contains ·)) = c.added.map (none, ·) := by
    apply List.filter_eq_self.mpr
    simp
  have hkept := congrArg (List.map Prod.snd) hc.map_replaced
  simp only [List.map_map] at hkept
  simp only [UpdateOp.execute, LocalCopy.itemOps, List.foldl_append, UpdateOp.foldl_append,
    UpdateOp.foldl_deleteItem, UpdateOp.foldl_setItem, List.filter_append, hadded, List.map_append,
    List.map_map]
  rw [hkept]
  simp [kept, Function.comp_def]

end Collection

namespace LocalCopy

theorem itemOps_of_unchanged {c : Collection} (h : c.hasChanges = false) (q : Property) :
    itemOps q c = [] := by
  simp only [Collection.hasChanges, Bool.or_eq_false_iff, Bool.not_eq_false', List.isEmpty_iff,
    List.any_eq_false, Bool.or_eq_true, not_or, Bool.not_eq_true, Option.isNone_eq_false_iff] at h
  obtain ⟨hremoved, hentries⟩ := h
  have hadded : c.added = [] := by
    simp only [Collection.added, List.map_eq_nil_iff, List.filter_eq_nil_iff]
    intro e he
    simp [Option.isSome_iff_ne_none.mp (hentries e he).1]
  have hmodified : c.modified = [] := by
    simp only [Collection.modified, List.filterMap_eq_nil_iff, List.mem_filter]
    rintro e ⟨he, hm⟩
    rw [(hentries e he).2] at hm
    cases hm
  simp [itemOps, hadded, hmodified, Collection.removedPositions, hremoved]

end LocalCopy

end ObjectTracking
