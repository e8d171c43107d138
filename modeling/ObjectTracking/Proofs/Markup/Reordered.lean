import ObjectTracking.Proofs.Markup.Walk
/-!
The elements of a forest in another order. If what is done at two elements of different names may be
done in either order, then a walk comes to the same end in every order that keeps the elements of each
name in theirs.
-/
set_option autoImplicit false

namespace ObjectTracking

theorem foldlM_to_front {σ α : Type} {f : σ → α → Option σ} {a : α} {before : List α}
    (hcomm : ∀ b ∈ before, ∀ s, (f s b).bind (f · a) = (f s a).bind (f · b)) (after : List α)
    (s : σ) : (before ++ a :: after).foldlM f s = (a :: (before ++ after)).foldlM f s := by
  induction before generalizing s with
  | nil => rfl
  | cons b before ih =>
    have hrest := ih fun b' hb' => hcomm b' (List.mem_cons_of_mem b hb')
    calc (f s b).bind (fun t => (before ++ a :: after).foldlM f t)
        = (f s b).bind fun t => (f t a).bind fun t => (before ++ after).foldlM f t := by
          simp only [hrest, List.foldlM_cons, Option.bind_eq_bind]
      _ = (f s a).bind fun t => (f t b).bind fun t => (before ++ after).foldlM f t := by
          rw [← Option.bind_assoc, hcomm b List.mem_cons_self, Option.bind_assoc]

/-- A fold over two lists that have the same items of each key in the same order, if items of different
keys may come in either order. -/
theorem foldlM_eq_of_filter {σ α κ : Type} [DecidableEq κ] {key : α → κ} {f : σ → α → Option σ}
    (hcomm : ∀ a b, key a ≠ key b → ∀ s, (f s a).bind (f · b) = (f s b).bind (f · a))
    {l l' : List α} (h : ∀ k, l.filter (key · = k) = l'.filter (key · = k)) (s : σ) :
    l.foldlM f s = l'.foldlM f s := by
  induction l generalizing l' s with
  | nil =>
    have hnil : l' = [] := by
      apply List.eq_nil_iff_forall_not_mem.mpr
      intro a ha
      have hmem : a ∈ l'.filter (key · = key a) := List.mem_filter.mpr ⟨ha, by simp⟩
      rw [← h (key a)] at hmem
      cases hmem
    rw [hnil]
  | cons a l ih =>
    -- The item that comes first here is the first of its key there.
    have hfirst := h (key a)
    rw [List.filter_cons_of_pos (by simp)] at hfirst
    obtain ⟨before, after, rfl, hbefore, -, hafter⟩ := List.filter_eq_cons_iff.mp hfirst.symm
    have hne : ∀ b ∈ before, key b ≠ key a := by simpa using hbefore
    have hrest : ∀ k, l.filter (key · = k) = (before ++ after).filter (key · = k) := by
      intro k
      have hk := h k
      by_cases hka : key a = k
      · subst hka
        have hnone : before.filter (key · = key a) = [] :=
          List.filter_eq_nil_iff.mpr (by simpa using hne)
        simpa [hnone] using hk
      · simpa [hka] using hk
    rw [foldlM_to_front (fun b hb => hcomm b a (hne b hb)) after s]
    simp only [List.foldlM_cons, ih hrest]

namespace Markup

namespace Progress
variable {σ τ : Type}

def finished? (p : Progress σ) : Option σ :=
  match p.stop? with
  | some _ => none
  | none => some p.state

theorem finished?_eq_some_iff {p : Progress σ} {s : σ} :
    p.finished? = some s ↔ p.stop? = none ∧ p.state = s := by
  unfold finished?
  cases p.stop? <;> simp

theorem state_of_finished? {p : Progress σ} {s : σ} (h : p.finished? = some s) : p.state = s :=
  (finished?_eq_some_iff.mp h).2

@[simp] theorem finished?_done (s : σ) : (done s).finished? = some s := rfl
@[simp] theorem finished?_halt (s : σ) (e : Fault) : (halt s e).finished? = none := rfl
@[simp] theorem finished?_remarked (b : List Report) (p : Progress σ) :
    (p.remarked b).finished? = p.finished? := rfl

@[simp] theorem finished?_later (n : Nat) (p : Progress σ) :
    (p.later n).finished? = p.finished? := by
  unfold finished? later
  cases p.stop? <;> rfl

@[simp] theorem finished?_map (f : σ → τ) (p : Progress σ) :
    (p.map f).finished? = p.finished?.map f := by
  unfold finished? map
  cases p.stop? <;> rfl

@[simp] theorem finished?_andThen (p : Progress σ) (next : σ → Progress σ) :
    (p.andThen next).finished? = p.finished?.bind fun s => (next s).finished? := by
  unfold finished? andThen
  cases h : p.stop? <;> simp [h, remarked]

end Progress

namespace Forest
variable {σ : Type} {step : Tag → Forest → σ → Progress σ}

/-- What each step does not see, the walk does not see. -/
theorem walk_map {g : σ → σ}
    (hstep : ∀ tag content s, step tag content (g s) = (step tag content s).map g) (f : Forest)
    (s : σ) : f.walk step (g s) = (f.walk step s).map g := by
  induction f generalizing s with
  | closed => rfl
  | cut => rfl
  | text _ rest ih => exact congrArg (Progress.later 1) (ih s)
  | element tag content rest _ ih =>
    simp only [walk, Progress.andThen, hstep, Progress.later, Progress.map]
    cases (step tag content s).stop? with
    | some stop => rfl
    | none => simp [ih, Progress.remarked, Progress.map]

/-- A walk over what is closed takes the step at one element after the other. -/
theorem finished?_walk {f : Forest} (hf : f.isClosed = true) (s : σ) :
    (f.walk step s).finished? =
      f.elements.foldlM (fun s x => (step x.1 x.2 s).finished?) s := by
  induction f generalizing s with
  | closed => rfl
  | cut => cases hf
  | text _ rest ih => simpa [walk, elements] using ih hf s
  | element tag content rest _ ih =>
    simp only [walk, elements, Progress.finished?_andThen, Progress.finished?_later,
      List.foldlM_cons, Option.bind_eq_bind, ih hf]

theorem finished?_walk_of_cut {f : Forest} (hf : f.isClosed = false) (s : σ) :
    (f.walk step s).finished? = none := by
  induction f generalizing s with
  | closed => cases hf
  | cut => rfl
  | text _ rest ih => simpa [walk] using ih hf s
  | element tag content rest _ ih => simp [walk, ih hf]

/-- If each step acts on what its element says, unless there is something in the element that cannot be
passed over, then so does the walk on what the elements say. -/
theorem finished?_walk_collect {α : Type} {I : σ → Prop} {collect : Tag × Forest → List α}
    {act : σ → α → Option σ} (hact : ∀ a s s', I s → act s a = some s' → I s')
    (hstep : ∀ x : Tag × Forest, ∃ passes : Bool, ∀ s, I s →
      (step x.1 x.2 s).finished? = if passes then (collect x).foldlM act s else none) (f : Forest) :
    ∃ passes : Bool, ∀ s, I s → (f.walk step s).finished? =
      if passes then (f.elements.flatMap collect).foldlM act s else none := by
  induction f with
  | closed => exact ⟨true, fun s _ => rfl⟩
  | cut => exact ⟨false, fun s _ => rfl⟩
  | text _ rest ih =>
    obtain ⟨passes, hrest⟩ := ih
    exact ⟨passes, fun s hs => (Progress.finished?_later 1 _).trans (hrest s hs)⟩
  | element tag content rest _ ih =>
    obtain ⟨passes, hfirst⟩ := hstep (tag, content)
    obtain ⟨passes', hrest⟩ := ih
    have hinv : ∀ (as : List α) (s s' : σ), I s → as.foldlM act s = some s' → I s' := by
      intro as
      induction as with
      | nil =>
        intro s s' hs h
        exact Option.some.inj h ▸ hs
      | cons a as ih =>
        intro s s' hs h
        obtain ⟨t, ht, h⟩ := Option.bind_eq_some_iff.mp h
        exact ih t s' (hact a s t hs ht) h
    refine ⟨passes && passes', ?_⟩
    intro s hs
    rw [walk, Progress.finished?_andThen, Progress.finished?_later, hfirst s hs, elements,
      List.flatMap_cons, List.foldlM_append]
    cases passes with
    | false => rfl
    | true =>
      cases hs' : (collect (tag, content)).foldlM act s with
      | none => cases passes' <;> rfl
      | some s' => simpa using hrest s' (hinv _ s s' hs hs')

/-- Two forests with the same elements, those of each name in the same order. -/
structure Reordered (f f' : Forest) : Prop where
  isClosed : f.isClosed = f'.isClosed
  elements : ∀ name, f.elements.filter (·.1.name = name) = f'.elements.filter (·.1.name = name)

theorem Reordered.refl (f : Forest) : f.Reordered f := ⟨rfl, fun _ => rfl⟩

theorem Reordered.trans {f f' f'' : Forest} (h : f.Reordered f') (h' : f'.Reordered f'') :
    f.Reordered f'' :=
  ⟨h.isClosed.trans h'.isClosed, fun name => (h.elements name).trans (h'.elements name)⟩

theorem Reordered.element {f f' : Forest} (h : f.Reordered f') (tag : Tag) (content : Forest) :
    (element tag content f).Reordered (element tag content f') := by
  refine ⟨h.isClosed, ?_⟩
  intro name
  simp only [Forest.elements, List.filter_cons, h.elements name]

/-- Two neighbours of different names may change places. -/
theorem Reordered.swap {tag tag' : Tag} (h : tag.name ≠ tag'.name) (content content' rest : Forest) :
    Reordered (.element tag content (.element tag' content' rest))
      (.element tag' content' (.element tag content rest)) := by
  refine ⟨rfl, ?_⟩
  intro name
  simp only [Forest.elements, List.filter_cons, decide_eq_true_eq]
  by_cases hname : tag.name = name
  · have hname' : tag'.name ≠ name := fun heq => h (hname.trans heq.symm)
    simp [hname, hname']
  · simp [hname]

theorem Reordered.finished?_walk {f f' : Forest} (h : f.Reordered f')
    (hcomm : ∀ x y : Tag × Forest, x.1.name ≠ y.1.name → ∀ s,
      (step x.1 x.2 s).finished?.bind (fun s => (step y.1 y.2 s).finished?) =
        (step y.1 y.2 s).finished?.bind fun s => (step x.1 x.2 s).finished?) (s : σ) :
    (f.walk step s).finished? = (f'.walk step s).finished? := by
  cases hf : f.isClosed with
  | true =>
    rw [Forest.finished?_walk hf, Forest.finished?_walk (h.isClosed ▸ hf)]
    exact foldlM_eq_of_filter hcomm h.elements s
  | false => rw [finished?_walk_of_cut hf, finished?_walk_of_cut (h.isClosed ▸ hf)]

end Forest

end Markup

end ObjectTracking
