import ObjectTracking.Proofs.Links
/-!
Nested values that are created on the way to what is edited. An edit that counts as no change leaves a
composite as it was, but for the empty values that it has created. These show in the number of nested
values, which only a change can make smaller again.
-/
set_option autoImplicit false

namespace ObjectTracking

mutual

def Composite.nestedCount : Composite → Nat
  | .mk _ _ fs => Field.nestedCountAll fs

def Field.nestedCount : Field → Nat
  | .unset | .scalar _ => 0
  | .nested c => c.nestedCount + 1

def Field.nestedCountAll : List Field → Nat
  | [] => 0
  | f :: fs => f.nestedCount + Field.nestedCountAll fs

end

mutual

theorem Composite.nestedCount_attach (k : Option Link) :
    (c : Composite) → (c.attach k).nestedCount = c.nestedCount
  | .mk l _ fs => by
    simp only [Composite.attach, Composite.nestedCount]
    exact Field.nestedCountAll_attachAll k fs

theorem Field.nestedCount_attach (k : Option Link) :
    (f : Field) → (f.attach k).nestedCount = f.nestedCount
  | .unset => rfl
  | .scalar _ => rfl
  | .nested c => by
    simp only [Field.attach, Field.nestedCount]
    rw [Composite.nestedCount_attach k c]

theorem Field.nestedCountAll_attachAll (k : Option Link) :
    (fs : List Field) → Field.nestedCountAll (Field.attachAll k fs) = Field.nestedCountAll fs
  | [] => rfl
  | f :: fs => by
    simp only [Field.attachAll, Field.nestedCountAll]
    rw [Field.nestedCount_attach k f, Field.nestedCountAll_attachAll k fs]

end

attribute [simp] Composite.nestedCount_attach

theorem Field.nestedCountAll_set {fs : List Field} {ix : Nat} {f g : Field} (hf : fs[ix]? = some f) :
    Field.nestedCountAll (fs.set ix g) + f.nestedCount =
      Field.nestedCountAll fs + g.nestedCount := by
  induction fs generalizing ix with
  | nil => cases hf
  | cons f' fs ih =>
    cases ix with
    | zero =>
      obtain rfl : f' = f := by simpa using hf
      simp only [List.set_cons_zero, nestedCountAll]
      omega
    | succ ix =>
      have hf' : fs[ix]? = some f := by simpa using hf
      have h := ih hf'
      simp only [List.set_cons_succ, nestedCountAll]
      omega

namespace Composite
variable {cat : Catalog} {c : Composite} {edit : CompositeEdit} {ix : Nat} {f g : Field}

theorem nestedCount_setAt (hf : c.fields[ix]? = some f) :
    (c.setAt ix g).nestedCount + f.nestedCount = c.nestedCount + g.nestedCount := by
  obtain ⟨l, k, fs⟩ := c
  exact Field.nestedCountAll_set hf

theorem setAt_attach (c : Composite) (ix : Nat) (f : Field) (k : Option Link) :
    (c.setAt ix f).attach k = (c.attach k).setAt ix (f.attach k) := by
  obtain ⟨l, k', fs⟩ := c
  simp [setAt, withFields, attach, fields, layout, link, Field.attachAll_eq_map, List.map_set]

theorem setAt_of_getElem? (hf : c.fields[ix]? = some f) : c.setAt ix f = c := by
  obtain ⟨l, k, fs⟩ := c
  obtain ⟨hlt, rfl⟩ := List.getElem?_eq_some_iff.mp hf
  simp [setAt, withFields, fields, layout, link]

/-- Whether an edit creates a nested value on its way. -/
def creates (cat : Catalog) : CompositeEdit → Composite → Bool
  | .nested name edit, c => (c.nested? cat name).any fun (ix, n) =>
      c.fields[ix]?.any Field.isUnset || creates cat edit n
  | _, _ => false

/-- A composite has become another without a change: they differ in nothing but links or, if something
was created in between, in the number of nested values. -/
def Grows (created : Bool) (c c' : Composite) : Prop :=
  if created then c.nestedCount < c'.nestedCount else c'.attach none = c.attach none

/-- An edit that counts as no change does no more than to create what it passes. -/
theorem perform_grows (h : c.changes cat edit = false) :
    c.Grows (c.creates cat edit) (c.perform cat edit).state := by
  induction edit generalizing c with
  | touch => rfl
  | set name v =>
    rcases set_eq cat c name v with ⟨ix, f, stored, -, -, hset⟩ | ⟨e, hset⟩
    · simp [changes, hset, Edited.done, Except.isOk, Except.toBool] at h
    · simp [Grows, creates, perform, hset]
  | notify => cases h
  | nested name edit ih =>
    rcases editField_eq cat c name (perform cat edit) with ⟨ix, n, hn, hedit⟩ | ⟨hn, e, hedit⟩
    · have hinner := ih (c := n) (by simpa [changes, hn] using h)
      simp only [perform, hedit, Edited.state_within, creates, hn, Option.any_some]
      rcases nested?_eq_some hn with ⟨l, hunset, -⟩ | hheld
      · -- The field was unset: whatever becomes of the new value, there is one more.
        have hcount := nestedCount_setAt (g := .nested (n.perform cat edit).state) hunset
        simp only [Grows, hunset, Option.any_some, Field.isUnset, Bool.true_or, if_true]
        simp only [Field.nestedCount] at hcount
        omega
      · simp only [hheld, Option.any_some, Field.isUnset, Bool.false_or]
        cases hcreates : n.creates cat edit with
        | true =>
          rw [hcreates] at hinner
          have hlt : n.nestedCount < (n.perform cat edit).state.nestedCount := hinner
          have hcount := nestedCount_setAt (g := .nested (n.perform cat edit).state) hheld
          simp only [Grows, if_true]
          simp only [Field.nestedCount] at hcount
          omega
        | false =>
          rw [hcreates] at hinner
          have hsame : (n.perform cat edit).state.attach none = n.attach none := hinner
          change ((c.setAt ix (.nested _)).attach none) = c.attach none
          rw [setAt_attach, Field.attach, hsame, ← Field.attach, ← setAt_attach,
            setAt_of_getElem? hheld]
    · simp [Grows, creates, perform, hedit, hn]

end Composite

namespace Value
variable {cat : Catalog} {e : ValueEdit} {v w x : Value} {a b : Bool}

def detach : Value → Value
  | .composite c => .composite (c.attach none)
  | .collection c => .collection (c.attach none)
  | v => v

def nestedCount : Value → Nat
  | .composite c => c.nestedCount
  | _ => 0

def creates (cat : Catalog) : ValueEdit → Value → Bool
  | .composite e, .composite c => c.creates cat e
  | _, _ => false

@[inherit_doc Composite.Grows]
def Grows (created : Bool) (v w : Value) : Prop :=
  if created then v.nestedCount < w.nestedCount else w.detach = v.detach

theorem nestedCount_detach (v : Value) : v.detach.nestedCount = v.nestedCount := by
  cases v <;> simp [detach, nestedCount]

theorem detach_copy_attach (v : Value) (l : Link) : (v.copy.attach l).detach = v.detach := by
  cases v <;> simp [copy, attach, detach, Composite.copy, Collection.copy, Collection.attach]

theorem Grows.nestedCount_le (h : v.Grows a w) : v.nestedCount ≤ w.nestedCount := by
  cases a with
  | true => exact Nat.le_of_lt h
  | false =>
    have hsame := congrArg nestedCount (show w.detach = v.detach from h)
    simp only [nestedCount_detach] at hsame
    omega

theorem Grows.trans (h : v.Grows a w) (h' : w.Grows b x) : v.Grows (a || b) x := by
  cases a with
  | true => exact Nat.lt_of_lt_of_le h h'.nestedCount_le
  | false =>
    cases b with
    | true => exact Nat.lt_of_le_of_lt h.nestedCount_le h'
    | false => exact Eq.trans (show x.detach = w.detach from h') h

theorem Grows.detach_eq_iff (h : v.Grows a w) : w.detach = v.detach ↔ a = false := by
  cases a with
  | true =>
    have hlt : v.nestedCount < w.nestedCount := h
    simp only [Bool.true_eq_false, iff_false]
    intro hsame
    have hcount := congrArg nestedCount hsame
    simp only [nestedCount_detach] at hcount
    omega
  | false => exact ⟨fun _ => rfl, fun _ => h⟩

theorem grows_composite {c d : Composite} (h : c.Grows a d) :
    (composite c).Grows a (composite d) := by
  cases a with
  | true => exact h
  | false => exact congrArg composite (show d.attach none = c.attach none from h)

theorem perform_grows {r : Edited Value Unit} (h : v.changes cat e = false)
    (hr : v.perform cat e = some r) : v.Grows (v.creates cat e) r.state := by
  cases e with
  | composite e =>
    cases v with
    | composite c =>
      obtain rfl := Option.some.inj hr
      exact grows_composite (Composite.perform_grows h)
    | _ => cases hr
  | collection e =>
    cases v with
    | collection c =>
      obtain rfl := Option.some.inj hr
      rw [Edited.state_within, Collection.perform_unchanged cat h]
      rfl
    | _ => cases hr

end Value

end ObjectTracking
