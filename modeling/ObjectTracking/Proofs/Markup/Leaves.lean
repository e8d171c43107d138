import ObjectTracking.Markup.Node
/-!
What each token of a document leaves among its nodes, and what becomes of the nodes: texts that
stand next to each other are joined, blank text between tags is dropped, and all that an element holds
is kept.
-/
set_option autoImplicit false

namespace ObjectTracking.Markup

namespace Token

def isTag : Token → Bool
  | opening _ _ => true
  | closing _ => true
  | _ => false

def isOpening : Token → Bool
  | opening _ _ => true
  | _ => false

def value? : Token → Option (List Char)
  | text raw => unescape? raw
  | verbatim data => some data
  | _ => none

end Token

namespace Node

def isTag : Node → Bool
  | opening _ => true
  | closing _ _ => true
  | text _ => false

def isOpening : Node → Bool
  | opening _ => true
  | _ => false

end Node

/-- What a token leaves inside some open elements: its nodes, and the elements that are open after
it. -/
inductive Leaves : List Frame → Token → List Node → List Frame → Prop where
  | text {frames : List Frame} {t : Token} {s : List Char} (read : t.value? = some s) :
    Leaves frames t [.text (String.ofList s)] frames
  | opening {frames : List Frame} {content : List Char} {tag : Tag} {f : Frame}
      (read : openTag? frames content = some (tag, f)) :
    Leaves frames (.opening content false) [.opening tag] (f :: frames)
  | empty {frames : List Frame} {content : List Char} {tag : Tag} {f : Frame}
      (read : openTag? frames content = some (tag, f)) :
    Leaves frames (.opening content true) [.opening tag, f.closing] frames
  | closing (f : Frame) (outer : List Frame) :
    Leaves (f :: outer) (.closing f.name) [f.closing] outer

variable {frames frames' : List Frame} {t : Token} {ts : List Token} {ns front : List Node}

theorem nodesOf?_cons_iff : nodesOf? frames (t :: ts) = some ns ↔
    ∃ front frames' rest, Leaves frames t front frames' ∧ nodesOf? frames' ts = some rest ∧
      ns = front ++ rest := by
  constructor
  · intro h
    cases t with
    | text raw =>
      simp only [nodesOf?, Option.bind_eq_bind, Option.bind_eq_some_iff] at h
      obtain ⟨s, hs, h⟩ := h
      obtain ⟨rest, hrest, rfl⟩ := Option.map_eq_some_iff.mp h
      exact ⟨_, _, rest, .text hs, hrest, rfl⟩
    | verbatim data =>
      obtain ⟨rest, hrest, rfl⟩ := Option.map_eq_some_iff.mp h
      exact ⟨_, _, rest, .text rfl, hrest, rfl⟩
    | opening content isEmpty =>
      simp only [nodesOf?, Option.bind_eq_bind, Option.bind_eq_some_iff] at h
      obtain ⟨⟨tag, f⟩, hopen, h⟩ := h
      cases isEmpty with
      | true =>
        obtain ⟨rest, hrest, rfl⟩ := Option.map_eq_some_iff.mp h
        exact ⟨_, _, rest, .empty hopen, hrest, rfl⟩
      | false =>
        obtain ⟨rest, hrest, rfl⟩ := Option.map_eq_some_iff.mp h
        exact ⟨_, _, rest, .opening hopen, hrest, rfl⟩
    | closing content =>
      cases frames with
      | nil => cases h
      | cons f outer =>
        simp only [nodesOf?] at h
        split at h
        · rename_i hname
          obtain rfl := beq_iff_eq.mp hname
          obtain ⟨rest, hrest, rfl⟩ := Option.map_eq_some_iff.mp h
          exact ⟨_, _, rest, .closing f outer, hrest, rfl⟩
        · cases h
  · rintro ⟨front, frames', rest, hleaves, hrest, rfl⟩
    cases hleaves with
    | text read =>
      cases t with
      | text raw =>
        have read : unescape? raw = some _ := read
        simp [nodesOf?, read, hrest]
      | verbatim data =>
        cases read
        simp [nodesOf?, hrest]
      | _ => cases read
    | opening read => simp [nodesOf?, read, hrest]
    | empty read => simp [nodesOf?, read, hrest]
    | closing f outer => simp [nodesOf?, hrest]

/-- What some tokens leave one after the other. -/
inductive Leave : List Frame → List Token → List Node → List Frame → Prop where
  | nil (frames : List Frame) : Leave frames [] [] frames
  | cons {frames frames' frames'' : List Frame} {t : Token} {ts : List Token} {front ns : List Node}
      (first : Leaves frames t front frames') (more : Leave frames' ts ns frames'') :
    Leave frames (t :: ts) (front ++ ns) frames''

theorem nodesOf?_append_iff {before : List Token} : nodesOf? frames (before ++ ts) = some ns ↔
    ∃ front frames' rest, Leave frames before front frames' ∧ nodesOf? frames' ts = some rest ∧
      ns = front ++ rest := by
  induction before generalizing frames ns with
  | nil =>
    constructor
    · exact fun h => ⟨[], frames, ns, .nil frames, h, rfl⟩
    · rintro ⟨front, frames', rest, hleave, hrest, rfl⟩
      cases hleave
      exact hrest
  | cons t before ih =>
    rw [List.cons_append, nodesOf?_cons_iff]
    constructor
    · rintro ⟨front, frames', later, hfirst, hlater, rfl⟩
      obtain ⟨more, frames'', rest, hmore, hrest, rfl⟩ := ih.mp hlater
      exact ⟨_, _, rest, .cons hfirst hmore, hrest, (List.append_assoc ..).symm⟩
    · rintro ⟨_, frames'', rest, hleave, hrest, rfl⟩
      cases hleave with
      | cons hfirst hmore =>
        exact ⟨_, _, _, hfirst, ih.mpr ⟨_, _, rest, hmore, hrest, rfl⟩, List.append_assoc ..⟩

theorem Leaves.countP_isOpening (h : Leaves frames t front frames') :
    front.countP Node.isOpening = [t].countP Token.isOpening := by
  cases h with
  | text read =>
    cases t with
    | text raw => rfl
    | verbatim data => rfl
    | _ => cases read
  | _ => rfl

theorem Leave.countP_isOpening (h : Leave frames ts front frames') :
    front.countP Node.isOpening = ts.countP Token.isOpening := by
  induction h with
  | nil => rfl
  | cons first more ih =>
    rw [List.countP_append, ih, first.countP_isOpening, ← List.countP_append]
    rfl

/-- Texts leave a node each and open nothing. -/
theorem leave_texts_iff {texts : List Token} (htexts : ∀ u ∈ texts, u.isTag = false) :
    Leave frames texts front frames' ↔
      frames' = frames ∧ ∃ values, texts.mapM Token.value? = some values ∧
        front = values.map (.text <| String.ofList ·) := by
  induction texts generalizing front with
  | nil =>
    constructor
    · intro h
      cases h
      exact ⟨rfl, [], rfl, rfl⟩
    · rintro ⟨rfl, values, hvalues, rfl⟩
      cases hvalues
      exact .nil _
  | cons u texts ih =>
    obtain ⟨hu, htexts⟩ := List.forall_mem_cons.mp htexts
    rw [List.mapM_cons]
    constructor
    · intro h
      cases h with
      | cons hfirst hmore =>
        cases hfirst with
        | text read =>
          obtain ⟨rfl, values, hvalues, rfl⟩ := (ih htexts).mp hmore
          exact ⟨rfl, _ :: values, by simp [read, hvalues], rfl⟩
        | _ => cases hu
    · rintro ⟨rfl, values, hvalues, rfl⟩
      simp only [Option.bind_eq_bind, Option.bind_eq_some_iff, Option.pure_def,
        Option.some.injEq] at hvalues
      obtain ⟨s, read, values, hvalues, rfl⟩ := hvalues
      exact .cons (.text read) ((ih htexts).mpr ⟨rfl, values, hvalues, rfl⟩)

/-- The node that some texts become, which stand next to each other. -/
def textRun : List (List Char) → List Node
  | [] => []
  | values => [.text (String.ofList values.flatten)]

section Join
variable {n : Node}

theorem joinText_append_tag (hn : n.isTag = true) (ns rest : List Node) :
    joinText (ns ++ n :: rest) = joinText ns ++ n :: joinText rest := by
  induction ns with
  | nil => cases n <;> first | rfl | cases hn
  | cons m ns ih =>
    cases m with
    | text s =>
      rw [List.cons_append, joinText, joinText, ih]
      cases joinText ns with
      | nil => cases n <;> first | rfl | cases hn
      | cons k ks => cases k <;> rfl
    | _ => simp [joinText, ih]

theorem joinText_texts (hn : n.isTag = true) (values : List (List Char)) (rest : List Node) :
    joinText (values.map (.text <| String.ofList ·) ++ n :: rest) =
      textRun values ++ n :: joinText rest := by
  rw [joinText_append_tag hn]
  congr 1
  induction values with
  | nil => rfl
  | cons v values ih =>
    rw [List.map_cons, joinText, ih]
    cases values with
    | nil => simp [textRun]
    | cons w values => simp [textRun, String.ofList_append]

theorem countP_isOpening_joinText (ns : List Node) :
    (joinText ns).countP Node.isOpening = ns.countP Node.isOpening := by
  induction ns with
  | nil => rfl
  | cons n ns ih =>
    cases n with
    | text s =>
      rw [joinText]
      split
      · rename_i h
        rw [h] at ih
        simpa [Node.isOpening] using ih
      · simpa [Node.isOpening] using ih
    | _ => simp [joinText, List.countP_cons, ih]

end Join

section Layout
variable {a b : Node}

theorem startsWithClosing_append (ns ns' : List Node) (n : Node) :
    startsWithClosing (ns ++ n :: ns') = startsWithClosing (ns ++ [n]) := by
  cases ns with
  | nil => cases n <;> rfl
  | cons m ns => cases m <;> rfl

/-- A blank text between two tags is dropped, unless it is all that an element holds. -/
theorem dropLayout_between (ha : a.isTag = true) (hb : b.isTag = true)
    (hab : ¬ (a.isOpening = true ∧ b.isOpening = false)) {s : String}
    (hs : Text.isBlankText s.toList = true) (afterOpening : Bool) (before after : List Node) :
    dropLayout afterOpening (before ++ a :: .text s :: b :: after) =
      dropLayout afterOpening (before ++ a :: b :: after) := by
  induction before generalizing afterOpening with
  | nil =>
    cases a with
    | text t => cases ha
    | opening tag =>
      cases b with
      | text t => cases hb
      | opening tag' => simp [dropLayout, hs, startsWithClosing]
      | closing ns name => exact absurd ⟨rfl, rfl⟩ hab
    | closing ns name =>
      cases b with
      | text t => cases hb
      | _ => simp [dropLayout, hs]
  | cons n before ih =>
    cases n with
    | text t =>
      simp only [List.cons_append, dropLayout, startsWithClosing_append before _ a, ih]
    | _ => simp only [List.cons_append, dropLayout, ih]

theorem dropLayout_append_opening (tag : Tag) (afterOpening : Bool) (before after : List Node) :
    ∃ before', dropLayout afterOpening (before ++ .opening tag :: after) =
        before' ++ .opening tag :: dropLayout true after ∧
      before'.countP Node.isOpening = before.countP Node.isOpening := by
  induction before generalizing afterOpening with
  | nil => exact ⟨[], rfl, rfl⟩
  | cons n before ih =>
    cases n with
    | text s =>
      rw [List.cons_append, dropLayout]
      split
      · obtain ⟨before', heq, hcount⟩ := ih false
        exact ⟨before', heq, hcount⟩
      · obtain ⟨before', heq, hcount⟩ := ih false
        exact ⟨.text s :: before', by rw [heq]; rfl, by simpa [List.countP_cons] using hcount⟩
    | opening tag' =>
      obtain ⟨before', heq, hcount⟩ := ih true
      exact ⟨.opening tag' :: before', by rw [List.cons_append, dropLayout, heq]; rfl,
        by simpa [List.countP_cons] using hcount⟩
    | closing ns name =>
      obtain ⟨before', heq, hcount⟩ := ih false
      exact ⟨.closing ns name :: before', by rw [List.cons_append, dropLayout, heq]; rfl,
        by simpa [List.countP_cons] using hcount⟩

end Layout

end ObjectTracking.Markup
