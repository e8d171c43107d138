import ObjectTracking.Proofs.Markup.Reader
import ObjectTracking.Proofs.Markup.Walk
/-!
Reading node by node is reading the tree. The forest after a position is closed exactly if an end tag
closes the position, and its size tells how far away that is. A loop over elements therefore leaves
what a walk over the forest leaves, with the cursor where the walk has stopped.
-/
set_option autoImplicit false

namespace ObjectTracking.Markup
open Cursor

section Levels
open Forest
variable {c c₁ : Cursor} {nodes : List Node}

theorem forward_of_rest (h : c.rest = []) (n : Nat) : c.forward n = c := by
  cases n with
  | zero => rfl
  | succ n => simp [forward, h]

theorem forward_cons (n : Nat) (current : Option Node) (x : Node) (rest : List Node) :
    forward (n + 1) ⟨current, x :: rest⟩ = forward n ⟨some x, rest⟩ := rfl

theorem forward_add (m n : Nat) (c : Cursor) : c.forward (m + n) = (c.forward m).forward n := by
  induction m generalizing c with
  | zero => rw [Nat.zero_add, forward]
  | succ m ih =>
    rw [Nat.succ_add, forward, forward]
    cases h : c.rest with
    | nil => exact (forward_of_rest h n).symm
    | cons x rest => exact ih ⟨some x, rest⟩

theorem forward_onward (n : Nat) (c : Cursor) : (c.forward n).rest.length ≤ c.rest.length := by
  induction n generalizing c with
  | zero => exact Nat.le_refl _
  | succ n ih =>
    rw [forward]
    cases h : c.rest with
    | nil => simp [h]
    | cons x rest => exact Nat.le_trans (ih ⟨some x, rest⟩) (Nat.le_succ _)

theorem after_onward {σ : Type} (c : Cursor) (p : Progress σ) :
    (c.after p).rest.length ≤ c.rest.length := by
  unfold after
  split
  · exact forward_onward _ c
  · exact forward_onward _ c

theorem levels_opening (tag : Tag) {g : Forest} {outer : List Forest}
    (h : (levels nodes).2 = g :: outer) :
    levels (.opening tag :: nodes) = (element tag (ofNodes nodes) g, outer) := by
  cases hlevels : levels nodes with
  | mk f rest =>
    rw [hlevels] at h
    subst h
    simp [levels, ofNodes, hlevels]

theorem ofNodes_opening (tag : Tag) (nodes : List Node) :
    ∃ next, ofNodes (.opening tag :: nodes) = element tag (ofNodes nodes) next := by
  simp only [ofNodes, levels]
  split
  · rename_i h
    exact ⟨_, by rw [h]⟩
  · rename_i h
    exact ⟨_, by rw [h]⟩

/-- Up to the end tag that closes a position stands a closed forest, and the forests further out
are those after it. -/
theorem levels_of_closing? (h : closing? 0 nodes = some c₁) :
    (ofNodes nodes).isClosed = true ∧ (levels nodes).2 = ofNodes c₁.rest :: (levels c₁.rest).2 ∧
      ∀ current, forward ((ofNodes nodes).size + 1) ⟨current, nodes⟩ = c₁ := by
  induction hlength : nodes.length using Nat.strongRecOn generalizing nodes c₁ with
  | ind n ih =>
    subst hlength
    match nodes with
    | [] => cases h
    | .text s :: rest =>
      have h : closing? 0 rest = some c₁ := h
      obtain ⟨hclosed, houter, hend⟩ := ih _ (Nat.lt_succ_self _) h rfl
      exact ⟨hclosed, houter, fun _ => hend _⟩
    | .closing ns name :: rest =>
      obtain rfl := Option.some.inj h
      exact ⟨rfl, rfl, fun _ => rfl⟩
    | .opening tag :: rest =>
      have h : closing? 1 rest = some c₁ := h
      rw [closing?_succ, Option.bind_eq_some_iff] at h
      obtain ⟨c, hc, h⟩ := h
      obtain ⟨hcontent, hafter, hinner⟩ := ih _ (Nat.lt_succ_self _) hc rfl
      have hlength := Nat.lt_succ_of_lt (closing?_length hc)
      obtain ⟨hclosed, houter, hend⟩ := ih _ hlength h rfl
      have hlevels := levels_opening tag hafter
      rw [ofNodes, hlevels]
      refine ⟨hclosed, houter, ?_⟩
      intro current
      have hsize : (element tag (ofNodes rest) (ofNodes c.rest)).size + 1 =
          ((ofNodes rest).size + 1 + ((ofNodes c.rest).size + 1)) + 1 := by
        simp [size, hcontent]
      rw [hsize, forward_cons, forward_add, hinner]
      exact hend c.current

/-- A position that no end tag closes has a forest that is not closed, and none further out. -/
theorem levels_of_not_closing? (h : closing? 0 nodes = none) :
    (ofNodes nodes).isClosed = false ∧ (levels nodes).2 = [] := by
  induction hlength : nodes.length using Nat.strongRecOn generalizing nodes with
  | ind n ih =>
    subst hlength
    match nodes with
    | [] => exact ⟨rfl, rfl⟩
    | .text s :: rest =>
      have h : closing? 0 rest = none := h
      obtain ⟨hopen, houter⟩ := ih _ (Nat.lt_succ_self _) h rfl
      exact ⟨hopen, houter⟩
    | .opening tag :: rest =>
      have h : closing? 1 rest = none := h
      rw [closing?_succ] at h
      cases hc : closing? 0 rest with
      | none =>
        obtain ⟨-, houter⟩ := ih _ (Nat.lt_succ_self _) hc rfl
        cases hlevels : levels rest with
        | mk f outer =>
          rw [hlevels] at houter
          subst houter
          simp [ofNodes, levels, hlevels, isClosed]
      | some c =>
        rw [hc, Option.bind_some] at h
        obtain ⟨-, hafter, -⟩ := levels_of_closing? hc
        have hlevels := levels_opening tag hafter
        rw [ofNodes, hlevels]
        exact ih _ (Nat.lt_succ_of_lt (closing?_length hc)) h rfl

theorem leadingText_eq (nodes : List Node) : leadingText nodes = (ofNodes nodes).plainText := by
  induction nodes with
  | nil => rfl
  | cons n rest ih =>
    cases n with
    | text s =>
      rw [leadingText, ih]
      rfl
    | closing ns name => rfl
    | opening tag =>
      rw [leadingText, ofNodes, levels]
      split <;> rfl

end Levels

namespace Progress
variable {σ : Type}

/-- Reading stops nowhere but where it began. -/
def Stands (p : Progress σ) : Prop := ∀ stop, p.stop? = some stop → stop.passed = 0

theorem stands_done (s : σ) : (done s).Stands := by
  rintro _ ⟨⟩

theorem stands_halt (s : σ) (f : Fault) : (halt s f).Stands := by
  rintro _ ⟨⟩
  rfl

theorem Stands.remarked {p : Progress σ} (h : p.Stands) (b : List Report) :
    (p.remarked b).Stands := h

theorem Stands.andThen {p : Progress σ} {next : σ → Progress σ} (h : p.Stands)
    (hnext : ∀ s, (next s).Stands) : (p.andThen next).Stands := by
  unfold Progress.andThen
  cases hp : p.stop? with
  | some stop => exact h
  | none => exact (hnext p.state).remarked p.reports

end Progress

namespace Passage
variable {σ τ : Type} {c c₁ : Cursor}

/-- What reading a tree has left, with the cursor where it has stopped. -/
def ofTree (c : Cursor) (p : Progress σ) : Passage c σ :=
  ⟨p.state, c.after p, after_onward c p, p.stop?.map Stop.fault, p.reports⟩

theorem map_ofTree (p : Progress σ) (f : σ → τ) : (ofTree c p).map f = ofTree c (p.map f) := rfl

theorem remarked_ofTree (p : Progress σ) (b : List Report) :
    (ofTree c p).remarked b = ofTree c (p.remarked b) := rfl

theorem fault?_ofTree_isSome (p : Progress σ) :
    (ofTree c p).fault?.isSome = p.stop?.isSome := by
  simp [ofTree]

theorem result_ofTree (p : Progress σ) : (ofTree c p).result = p.result := by
  cases hstop : p.stop? <;> simp [result, ofTree, Progress.result, hstop]

theorem andThen_of_isSome {p : Passage c σ}
    {next : (c' : Cursor) → c'.rest.length ≤ c.rest.length → σ → Passage c' σ}
    (h : p.fault?.isSome = true) : p.andThen next = p := by
  unfold andThen
  cases hp : p.fault? with
  | some f => rfl
  | none => simp [hp] at h

theorem andThen_of_none {p : Passage c σ}
    {next : (c' : Cursor) → c'.rest.length ≤ c.rest.length → σ → Passage c' σ}
    (h : p.fault? = none) :
    p.andThen next = ((next p.cursor p.onward p.state).since p.onward).remarked p.reports := by
  unfold andThen
  rw [h]

theorem here_of_stands {p : Progress σ} (h : p.Stands) (hp : p.stop?.isSome = true) :
    here c p = ofTree c p := by
  obtain ⟨stop, hstop⟩ := Option.isSome_iff_exists.mp hp
  ext1
  · rfl
  · simp [ofTree, after, hstop, stopped, h stop hstop, here, forward]
  · rfl
  · rfl

theorem startingWith_eq {p : Progress σ} (hp : p.Stands) {next : σ → Passage c σ}
    {next' : σ → Progress σ} (hnext : ∀ s, next s = ofTree c (next' s)) :
    startingWith p next = ofTree c (p.andThen next') := by
  unfold startingWith Progress.andThen
  cases hstop : p.stop? with
  | some stop => exact here_of_stands hp (by simp [hstop])
  | none => exact congrArg (remarked p.reports) (hnext p.state)

/-- A tree that is read from further on. -/
theorem ofTree_later {n : Nat} {p : Progress σ} (hc : c.forward n = c₁)
    (hsize : p.stop? = none →
      (Forest.ofNodes c.rest).size = n + (Forest.ofNodes c₁.rest).size)
    (h : c₁.rest.length ≤ c.rest.length) : (ofTree c₁ p).since h = ofTree c (p.later n) := by
  ext1
  · rfl
  · cases hstop : p.stop? with
    | some stop =>
      simp [since, ofTree, after, Progress.later, hstop, stopped, Stop.later, forward_add, hc]
    | none =>
      simp [since, ofTree, after, Progress.later, hstop, toEnd, hsize hstop, Nat.add_assoc,
        forward_add, hc]
  · cases hstop : p.stop? <;> simp [since, ofTree, Progress.later, hstop, Stop.later]
  · rfl

/-- What is done at the end of an element. -/
theorem here_since_eq {p : Progress σ} (hp : p.Stands) (hc : c.toEnd = c₁)
    (h : c₁.rest.length ≤ c.rest.length) :
    (here c₁ p).since h = ofTree c (p.later ((Forest.ofNodes c.rest).size + 1)) := by
  ext1
  · rfl
  · cases hstop : p.stop? with
    | some stop =>
      simp [since, here, ofTree, after, Progress.later, hstop, stopped, Stop.later, hp stop hstop,
        ← hc, toEnd]
    | none => simp [since, here, ofTree, after, Progress.later, hstop, hc]
  · cases hstop : p.stop? <;> simp [since, here, ofTree, Progress.later, hstop, Stop.later]
  · rfl

end Passage

namespace Cursor
variable {σ : Type} {c : Cursor}

theorem site_eq {tag : Tag} (h : c.current = some (.opening tag)) :
    c.site = ⟨some tag, Forest.ofNodes c.rest⟩ := by
  rw [site, tag?, h]

theorem pass_eq (c : Cursor) (s : σ) :
    c.pass s = .ofTree c ((Forest.ofNodes c.rest).skip s) := by
  unfold pass Forest.skip
  split
  · rename_i h
    rw [(levels_of_not_closing? h).1]
    rfl
  · rename_i c' h
    obtain ⟨hclosed, -, hend⟩ := levels_of_closing? h
    rw [hclosed]
    exact Passage.here_since_eq (Progress.stands_done s) (hend c.current) _

theorem readText_eq {use : String → Progress σ} (huse : ∀ text, (use text).Stands) (s : σ) :
    c.readText s use = .ofTree c (match c.site.value with
      | .error f => .halt s f
      | .ok text => (use text).later ((Forest.ofNodes c.rest).size + 1)) := by
  unfold readText Site.value site
  cases c.tag? with
  | none => rfl
  | some tag =>
    simp only
    split
    · rename_i h
      rw [(levels_of_not_closing? h).1]
      rfl
    · rename_i c' h
      obtain ⟨hclosed, -, hend⟩ := levels_of_closing? h
      simp only [hclosed, leadingText_eq]
      cases (Forest.ofNodes c.rest).plainText with
      | error child => rfl
      | ok text => exact Passage.here_since_eq (huse text) (hend c.current) _

section Walk
variable {walked : Tag → Forest → σ → Progress σ} {tag : Tag} {rest : List Node} {s : σ}

/-- A walk that stops in its first element. -/
theorem ofTree_walk_stopped (current : Option Node)
    (h : (walked tag (Forest.ofNodes rest) s).stop?.isSome = true) :
    Passage.ofTree ⟨current, .opening tag :: rest⟩
        ((Forest.ofNodes (.opening tag :: rest)).walk walked s) =
      (Passage.ofTree ⟨some (.opening tag), rest⟩ (walked tag (Forest.ofNodes rest) s)).since
        (Nat.le_succ _) := by
  obtain ⟨stop, hstop⟩ := Option.isSome_iff_exists.mp h
  obtain ⟨next, hnext⟩ := ofNodes_opening tag rest
  have hwalk : (Forest.ofNodes (.opening tag :: rest)).walk walked s =
      (walked tag (Forest.ofNodes rest) s).later 1 := by
    simp [hnext, Forest.walk, Progress.andThen, Progress.later, hstop]
  rw [hwalk]
  exact (Passage.ofTree_later (n := 1) rfl (by simp [hstop]) _).symm

/-- A walk that goes on after its first element. -/
theorem ofTree_walk_passed (current : Option Node) {c : Cursor}
    (h : (walked tag (Forest.ofNodes rest) s).stop? = none) (hend : closing? 0 rest = some c)
    (honward : c.rest.length ≤ rest.length + 1) :
    Passage.ofTree ⟨current, .opening tag :: rest⟩
        ((Forest.ofNodes (.opening tag :: rest)).walk walked s) =
      ((Passage.ofTree c ((Forest.ofNodes c.rest).walk walked
          (walked tag (Forest.ofNodes rest) s).state)).since honward).remarked
        (walked tag (Forest.ofNodes rest) s).reports := by
  obtain ⟨hclosed, hafter, hforward⟩ := levels_of_closing? hend
  have hnext : Forest.ofNodes (.opening tag :: rest) =
      .element tag (Forest.ofNodes rest) (Forest.ofNodes c.rest) := by
    rw [Forest.ofNodes, levels_opening tag hafter]
  have hwalk : (Forest.ofNodes (.opening tag :: rest)).walk walked s =
      (((Forest.ofNodes c.rest).walk walked (walked tag (Forest.ofNodes rest) s).state).later
        ((Forest.ofNodes rest).size + 2)).remarked (walked tag (Forest.ofNodes rest) s).reports := by
    simp [hnext, Forest.walk, Progress.andThen, Progress.later, h]
  have hpassed : forward ((Forest.ofNodes rest).size + 2) ⟨current, .opening tag :: rest⟩ = c :=
    hforward (some (.opening tag))
  rw [hwalk, Passage.ofTree_later hpassed, Passage.remarked_ofTree]
  intro _
  rw [hnext, Forest.size, hclosed, if_pos rfl]
  omega

/-- A loop is a walk if its steps are those of the walk and end on the end tags of their elements. -/
theorem readElements_eq {c : Cursor}
    {step : (c' : Cursor) → c'.rest.length < c.rest.length → Tag → σ → Passage c' σ}
    (hcloses : ∀ c' h tag s, (step c' h tag s).Closes)
    (hstep : ∀ c' h tag s, c'.current = some (.opening tag) →
      step c' h tag s = .ofTree c' (walked tag (Forest.ofNodes c'.rest) s)) (s : σ) :
    c.readElements step s = .ofTree c ((Forest.ofNodes c.rest).walk walked s) := by
  fun_induction readElements c step s with
  | case1 => rfl
  | case2 => rfl
  | case3 _ t rest step s ih =>
    rw [ih (fun c' h => hcloses c' (Nat.lt_succ_of_lt h)) fun c' h =>
      hstep c' (Nat.lt_succ_of_lt h)]
    exact Passage.ofTree_later (n := 1) rfl (fun _ => Nat.add_comm _ 1) _
  | case4 current tag rest s step ih =>
    have hfirst := hstep ⟨some (.opening tag), rest⟩ (Nat.lt_succ_self _) tag s rfl
    have hend := hcloses ⟨some (.opening tag), rest⟩ (Nat.lt_succ_self _) tag s
    rw [hfirst] at hend ⊢
    cases hstop : (walked tag (Forest.ofNodes rest) s).stop? with
    | some stop =>
      rw [Passage.andThen_of_isSome (by simp [Passage.ofTree, hstop]),
        ofTree_walk_stopped current (by simp [hstop])]
    | none =>
      have hpassed := hend (by simp [Passage.ofTree, hstop])
      rw [Passage.andThen_of_none (by simp [Passage.ofTree, hstop]), ih _ (Passage.onward _),
        ofTree_walk_passed current hstop hpassed (Nat.le_succ_of_le (Passage.onward _))]
      · rfl
      · intro c' h
        exact hcloses c' _
      · intro c' h
        exact hstep c' _

end Walk

end Cursor

end ObjectTracking.Markup
