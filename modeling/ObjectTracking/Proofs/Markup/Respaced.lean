import Mathlib.Logic.Relation
import ObjectTracking.Markup.Cursor
import ObjectTracking.Proofs.Markup.Cutting
import ObjectTracking.Proofs.Markup.Leaves
import ObjectTracking.Proofs.Markup.Tag
/-!
Layout of a document makes no difference to its reader. Blank text that is put between two tags
leaves no node, wherever it is put and however often, unless it becomes all that an element holds. The
text of an element without elements in it is its value, blanks included.
-/
set_option autoImplicit false

namespace ObjectTracking.Markup

variable {frames frames' : List Frame} {t : Token} {ns front : List Node}

section Gap
variable {t' : Token} {gap gap' : List Token}

def Token.IsLayout (t : Token) : Prop := ∃ s, t.value? = some s ∧ Text.isBlankText s = true

theorem Token.isTag_of_value? {s : List Char} (h : t.value? = some s) : t.isTag = false := by
  cases t <;> first | rfl | cases h

theorem Token.IsLayout.isTag (h : t.IsLayout) : t.isTag = false := by
  obtain ⟨s, hs, -⟩ := h
  exact Token.isTag_of_value? hs

theorem Leaves.last (h : Leaves frames t front frames') (ht : t.isTag = true) :
    ∃ before a, front = before ++ [a] ∧ a.isTag = true ∧
      (a.isOpening = true → ∃ content, t = .opening content false) := by
  cases h with
  | text read => simp [Token.isTag_of_value? read] at ht
  | opening read => exact ⟨[], _, rfl, rfl, fun _ => ⟨_, rfl⟩⟩
  | empty read => exact ⟨[.opening _], _, rfl, rfl, fun h => by cases h⟩
  | closing f outer => exact ⟨[], _, rfl, rfl, fun h => by cases h⟩

theorem Leaves.first (h : Leaves frames t front frames') (ht : t.isTag = true) :
    ∃ b after, front = b :: after ∧ b.isTag = true ∧
      (b.isOpening = false → ∃ name, t = .closing name) := by
  cases h with
  | text read => simp [Token.isTag_of_value? read] at ht
  | closing f outer => exact ⟨_, [], rfl, rfl, fun _ => ⟨_, rfl⟩⟩
  | _ => exact ⟨_, _, rfl, rfl, fun h => by cases h⟩

theorem exists_values_of_layout (h : ∀ u ∈ gap, u.IsLayout) :
    ∃ values, gap.mapM Token.value? = some values ∧ ∀ v ∈ values, Text.isBlankText v = true := by
  induction gap with
  | nil => exact ⟨[], rfl, by simp⟩
  | cons u gap ih =>
    obtain ⟨⟨s, hs, hblank⟩, hgap⟩ := List.forall_mem_cons.mp h
    obtain ⟨values, hvalues, hall⟩ := ih hgap
    exact ⟨s :: values, by simp [List.mapM_cons, hs, hvalues],
      List.forall_mem_cons.mpr ⟨hblank, hall⟩⟩

/-- Blank texts between two nodes of tags are dropped together. -/
theorem dropLayout_joinText_blank {a b : Node} (ha : a.isTag = true) (hb : b.isTag = true)
    (hab : ¬ (a.isOpening = true ∧ b.isOpening = false)) {values : List (List Char)}
    (hvalues : ∀ v ∈ values, Text.isBlankText v = true) (before after : List Node) :
    dropLayout false (joinText (before ++ a ::
        (values.map (.text <| String.ofList ·) ++ b :: after))) =
      dropLayout false (joinText (before ++ a :: b :: after)) := by
  rw [joinText_append_tag ha, joinText_append_tag ha, joinText_texts hb]
  have hjoin : joinText (b :: after) = b :: joinText after := joinText_append_tag hb [] after
  rw [hjoin]
  cases values with
  | nil => rfl
  | cons v values =>
    refine dropLayout_between ha hb hab ?_ false _ _
    rw [String.toList_ofList]
    simpa [Text.isBlankText, List.all_flatten] using hvalues

/-- The layout between two tags can be replaced by other layout. -/
theorem nodesOf?_gap (ht : t.isTag = true) (ht' : t'.isTag = true)
    (hpair : ¬ ∃ content name, t = .opening content false ∧ t' = .closing name)
    (hgap : ∀ u ∈ gap, u.IsLayout) (hgap' : ∀ u ∈ gap', u.IsLayout) {before back : List Token}
    (h : nodesOf? frames (before ++ t :: (gap ++ t' :: back)) = some ns) :
    ∃ ns', nodesOf? frames (before ++ t :: (gap' ++ t' :: back)) = some ns' ∧
      dropLayout false (joinText ns') = dropLayout false (joinText ns) := by
  obtain ⟨front, frames₁, _, hbefore, h₁, rfl⟩ := nodesOf?_append_iff.mp h
  obtain ⟨_, frames₂, _, hfirst, h₂, rfl⟩ := nodesOf?_cons_iff.mp h₁
  obtain ⟨_, frames₃, _, hblank, h₃, rfl⟩ := nodesOf?_append_iff.mp h₂
  obtain ⟨_, frames₄, rest, hsecond, hrest, rfl⟩ := nodesOf?_cons_iff.mp h₃
  obtain ⟨rfl, values, hvalues, rfl⟩ :=
    (leave_texts_iff fun u hu => (hgap u hu).isTag).mp hblank
  obtain ⟨before', a, rfl, ha, hopens⟩ := hfirst.last ht
  obtain ⟨b, after', rfl, hb, hcloses⟩ := hsecond.first ht'
  obtain ⟨values', hvalues', hall'⟩ := exists_values_of_layout hgap'
  have hblank' : Leave frames₃ gap' (values'.map (.text <| String.ofList ·)) frames₃ :=
    (leave_texts_iff fun u hu => (hgap' u hu).isTag).mpr ⟨rfl, values', hvalues', rfl⟩
  have hall : ∀ v ∈ values, Text.isBlankText v = true := by
    obtain ⟨values₀, hvalues₀, hall⟩ := exists_values_of_layout hgap
    obtain rfl := Option.some.inj (hvalues.symm.trans hvalues₀)
    exact hall
  have hab : ¬ (a.isOpening = true ∧ b.isOpening = false) := by
    rintro ⟨hopening, hclosing⟩
    obtain ⟨content, hcontent⟩ := hopens hopening
    obtain ⟨name, hname⟩ := hcloses hclosing
    exact hpair ⟨content, name, hcontent, hname⟩
  refine ⟨_, nodesOf?_append_iff.mpr ⟨front, frames₁, _, hbefore, nodesOf?_cons_iff.mpr
    ⟨_, frames₃, _, hfirst, nodesOf?_append_iff.mpr ⟨_, frames₃, _, hblank',
      nodesOf?_cons_iff.mpr ⟨_, frames₄, rest, hsecond, hrest, rfl⟩, rfl⟩, rfl⟩, rfl⟩, ?_⟩
  have hold := dropLayout_joinText_blank ha hb hab hall (front ++ before') (after' ++ rest)
  have hnew := dropLayout_joinText_blank ha hb hab hall' (front ++ before') (after' ++ rest)
  simp only [List.append_assoc, List.cons_append, List.nil_append] at hold hnew ⊢
  rw [hold, hnew]

/-- With other layout between them the tokens have the same nodes, or have none either. -/
theorem map_nodesOf?_gap (frames : List Frame) (ht : t.isTag = true) (ht' : t'.isTag = true)
    (hpair : ¬ ∃ content name, t = .opening content false ∧ t' = .closing name)
    (hgap : ∀ u ∈ gap, u.IsLayout) (hgap' : ∀ u ∈ gap', u.IsLayout) (before back : List Token) :
    (nodesOf? frames (before ++ t :: (gap' ++ t' :: back))).map (dropLayout false <| joinText ·) =
      (nodesOf? frames (before ++ t :: (gap ++ t' :: back))).map
        (dropLayout false <| joinText ·) := by
  cases hread : nodesOf? frames (before ++ t :: (gap ++ t' :: back)) with
  | some ns =>
    obtain ⟨ns', hns', heq⟩ := nodesOf?_gap ht ht' hpair hgap hgap' hread
    rw [hns', Option.map_some, Option.map_some, heq]
  | none =>
    cases hread' : nodesOf? frames (before ++ t :: (gap' ++ t' :: back)) with
    | none => rfl
    | some ns' =>
      obtain ⟨ns, hns, -⟩ := nodesOf?_gap ht ht' hpair hgap' hgap hread'
      rw [hread] at hns
      cases hns

end Gap

section Respaced
variable {cs cs' : List Char} {xml xml' : String}

/-- A place between two tags with nothing but layout and comments around it, other than between the
start of an element and its end. -/
def BetweenTags (before after : List Char) : Prop :=
  ∃ (front : List Token) (t : Token) (gap gap' : List Token) (t' : Token) (back : List Token),
    tokens? before = some (front ++ t :: gap) ∧ tokens? after = some (gap' ++ t' :: back) ∧
    t.isTag = true ∧ t'.isTag = true ∧ (∀ u ∈ gap ++ gap', u.IsLayout) ∧
    ¬ ∃ content name, t = .opening content false ∧ t' = .closing name

/-- A document with blank text put in between two tags. -/
def Respaces (xml xml' : String) : Prop :=
  ∃ before space after, xml.toList = before ++ after ∧ xml'.toList = before ++ (space ++ after) ∧
    BetweenTags (dropMark before) after ∧ '<' ∉ space ∧ (Token.text space).IsLayout

/-- Blank characters are blank text. -/
theorem isLayout_of_blank {space : List Char} (h : ∀ c ∈ space, Text.isBlank c = true) :
    '<' ∉ space ∧ (Token.text space).IsLayout := by
  have hplain : ∀ c, Text.isBlank c = false → c ∉ space := by
    intro c hc hmem
    rw [h c hmem] at hc
    cases hc
  exact ⟨hplain '<' (by decide), space, unescape?_of_not_mem (hplain '&' (by decide)),
    List.all_eq_true.mpr h⟩

theorem isLayout_text_append (h : (Token.text cs).IsLayout) (h' : (Token.text cs').IsLayout) :
    (Token.text (cs ++ cs')).IsLayout := by
  obtain ⟨s, hs, hblank⟩ := h
  obtain ⟨s', hs', hblank'⟩ := h'
  refine ⟨s ++ s', unescape?_append hs hs', ?_⟩
  rw [Text.isBlankText, List.all_append]
  exact Bool.and_eq_true_iff.mpr ⟨hblank, hblank'⟩

/-- Layout goes over from one part of a document to the other as layout. -/
theorem tokens?_append_layout {front gap gap' back : List Token}
    (h : tokens? cs = some (front ++ gap)) (h' : tokens? cs' = some (gap' ++ back))
    (hfront : ∀ u ∈ front.getLast?, u.isTag = true) (hback : ∀ u ∈ back.head?, u.isTag = true)
    (hgap : ∀ u ∈ gap, u.IsLayout) (hgap' : ∀ u ∈ gap', u.IsLayout) :
    ∃ mid, tokens? (cs ++ cs') = some (front ++ (mid ++ back)) ∧ ∀ u ∈ mid, u.IsLayout := by
  obtain ⟨us, hus, hjoins⟩ := tokens?_append h h'
  generalize hts : front ++ gap = ts at hjoins
  generalize hts' : gap' ++ back = ts' at hjoins
  cases hjoins with
  | apart =>
    refine ⟨gap ++ gap', ?_, List.forall_mem_append.mpr ⟨hgap, hgap'⟩⟩
    rw [hus, ← hts, ← hts']
    simp
  | within before raw raw' after =>
    obtain ⟨gap, rfl, rfl⟩ : ∃ g, gap = g ++ [.text raw] ∧ before = front ++ g := by
      rcases List.eq_nil_or_concat gap with rfl | ⟨g, u, rfl⟩
      · rw [List.append_nil] at hts
        have htext := hfront (.text raw) (by simp [hts])
        cases htext
      · rw [List.concat_eq_append, ← List.append_assoc] at hts
        obtain ⟨hbefore, hu⟩ := List.append_inj' hts rfl
        cases hu
        exact ⟨g, List.concat_eq_append .., hbefore.symm⟩
    obtain ⟨gap', rfl, rfl⟩ : ∃ g, gap' = .text raw' :: g ∧ after = g ++ back := by
      cases gap' with
      | nil =>
        have htext := hback (.text raw') (by simp [show back = _ from hts'])
        cases htext
      | cons u g =>
        obtain ⟨rfl, hafter⟩ := List.cons.inj hts'
        exact ⟨g, rfl, hafter.symm⟩
    obtain ⟨hgap, hraw⟩ := List.forall_mem_append.mp hgap
    obtain ⟨hraw', hgap'⟩ := List.forall_mem_cons.mp hgap'
    refine ⟨gap ++ .text (raw ++ raw') :: gap', by rw [hus]; simp, List.forall_mem_append.mpr
      ⟨hgap, List.forall_mem_cons.mpr ⟨?_, hgap'⟩⟩⟩
    exact isLayout_text_append (hraw _ List.mem_cons_self) hraw'

theorem tokens?_space {space : List Char} (h : '<' ∉ space)
    (hlayout : (Token.text space).IsLayout) :
    ∃ gap, tokens? space = some gap ∧ ∀ u ∈ gap, u.IsLayout := by
  cases space with
  | nil => exact ⟨[], by rw [tokens?], by simp⟩
  | cons c cs =>
    have htokens := tokens?_text (List.cons_ne_nil c cs) h (Text.ends_nil _)
    rw [List.append_nil, tokens?.eq_1] at htokens
    exact ⟨_, htokens, by simpa using hlayout⟩

theorem dropMark_append (h : cs ≠ []) (cs' : List Char) :
    dropMark (cs ++ cs') = dropMark cs ++ cs' := by
  cases cs with
  | nil => exact absurd rfl h
  | cons c cs =>
    rw [List.cons_append]
    unfold dropMark
    split
    · rename_i heq
      obtain ⟨rfl, rfl⟩ := List.cons.inj heq
      rfl
    · rename_i hmark
      split
      · rename_i heq
        obtain ⟨rfl, rfl⟩ := List.cons.inj heq
        exact absurd rfl (hmark _)
      · rfl

theorem nodes?_of_tokens {ts : List Token} (h : tokens? (dropMark xml.toList) = some ts) :
    nodes? xml = (nodesOf? [] ts).map fun ns => dropLayout false (joinText ns) := by
  rw [nodes?, h]
  cases hns : nodesOf? [] ts <;> simp [hns]

theorem nodes?_of_respaces (h : Respaces xml xml') : nodes? xml' = nodes? xml := by
  obtain ⟨before, space, after, hxml, hxml', hplace, hspace, hlayout⟩ := h
  obtain ⟨front, t, gap, gap', t', back, hbefore, hafter, ht, ht', hgaps, hpair⟩ := hplace
  obtain ⟨hgap, hgap'⟩ := List.forall_mem_append.mp hgaps
  obtain ⟨blank, hblank, hblanks⟩ := tokens?_space hspace hlayout
  have hne : before ≠ [] := by
    rintro rfl
    have hnil : tokens? (dropMark []) = some [] := by rw [dropMark, tokens?]; simp
    rw [hnil] at hbefore
    simp at hbefore
  have hfront : ∀ u ∈ (front ++ [t]).getLast?, u.isTag = true := by simpa using ht
  have hback : ∀ u ∈ (t' :: back).head?, u.isTag = true := by simpa using ht'
  have hbefore : tokens? (dropMark before) = some ((front ++ [t]) ++ gap) := by simpa using hbefore
  have hblank : tokens? space = some ([] ++ blank) := hblank
  -- The blank text may join the layout on either side of it.
  obtain ⟨spaced, hspaced, hspaceds⟩ :=
    tokens?_append_layout hblank hafter (by simp) hback hblanks hgap'
  rw [List.nil_append] at hspaced
  obtain ⟨mid, hmid, hmids⟩ := tokens?_append_layout hbefore hafter hfront hback hgap hgap'
  obtain ⟨mid', hmid', hmids'⟩ :=
    tokens?_append_layout hbefore hspaced hfront hback hgap hspaceds
  rw [List.append_assoc, List.singleton_append] at hmid hmid'
  rw [← dropMark_append hne, ← hxml] at hmid
  rw [← dropMark_append hne, ← hxml'] at hmid'
  rw [nodes?_of_tokens hmid, nodes?_of_tokens hmid']
  exact map_nodesOf?_gap [] ht ht' hpair hmids hmids' front back

end Respaced

/-- The start tag with some number of start tags before it is that of an element with a text as its
value, which a reader on that tag takes to come to rest on the end tag. -/
def HasValue (nodes : List Node) (number : Nat) (value : String) : Prop :=
  ∃ before tag inner ns name after,
    nodes = before ++ .opening tag :: (inner ++ .closing ns name :: after) ∧
    before.countP Node.isOpening = number ∧
    Cursor.readValue ⟨some (.opening tag), inner ++ .closing ns name :: after⟩ =
      .ok (value, ⟨some (.closing ns name), after⟩)

section Value
variable {xml : String} {nodes : List Node} {before back : List Token}

theorem readValue_textRun (tag : Tag) (values : List (List Char)) (ns : Option Namespace)
    (name : String) (after : List Node) :
    Cursor.readValue ⟨some (.opening tag), textRun values ++ .closing ns name :: after⟩ =
      .ok (String.ofList values.flatten, ⟨some (.closing ns name), after⟩) := by
  cases values with
  | nil => rfl
  | cons v values =>
    simp [Cursor.readValue, Cursor.site, Cursor.tag?, Cursor.toEnd, Cursor.forward, Site.value,
      Forest.ofNodes, Forest.levels, Forest.isClosed, Forest.plainText, Forest.size, textRun,
      Except.map]

/-- All that an element holds is kept, blank or not. -/
theorem dropLayout_textRun (values : List (List Char)) (ns : Option Namespace) (name : String)
    (after : List Node) : dropLayout true (textRun values ++ .closing ns name :: after) =
      textRun values ++ .closing ns name :: dropLayout false after := by
  cases values <;> simp [textRun, dropLayout, startsWithClosing]

theorem hasValue_joinText (front : List Node) (tag : Tag) (values : List (List Char))
    (ns : Option Namespace) (name : String) (after : List Node) :
    HasValue (dropLayout false (joinText (front ++ .opening tag ::
        (values.map (.text <| String.ofList ·) ++ .closing ns name :: after))))
      (front.countP Node.isOpening) (String.ofList values.flatten) := by
  rw [joinText_append_tag rfl, joinText_texts rfl]
  obtain ⟨before, hbefore, hcount⟩ := dropLayout_append_opening tag false (joinText front)
    (textRun values ++ .closing ns name :: joinText after)
  rw [hbefore, dropLayout_textRun]
  exact ⟨before, tag, textRun values, ns, name, _, rfl,
    hcount.trans (countP_isOpening_joinText front), readValue_textRun tag values ns name _⟩

theorem exists_nodesOf?_of_tokens (hnodes : nodes? xml = some nodes) {ts : List Token}
    (hts : tokens? (dropMark xml.toList) = some ts) :
    ∃ ns, nodesOf? [] ts = some ns ∧ nodes = dropLayout false (joinText ns) := by
  rw [nodes?_of_tokens hts] at hnodes
  obtain ⟨ns, hns, heq⟩ := Option.map_eq_some_iff.mp hnodes
  exact ⟨ns, hns, heq.symm⟩

/-- An element in which no tag stands has what its texts stand for as its value. -/
theorem hasValue_of_texts (hnodes : nodes? xml = some nodes) {content name : List Char}
    {texts : List Token} (htexts : ∀ u ∈ texts, u.isTag = false)
    (hts : tokens? (dropMark xml.toList) =
      some (before ++ .opening content false :: (texts ++ .closing name :: back))) :
    ∃ values, texts.mapM Token.value? = some values ∧
      HasValue nodes (before.countP Token.isOpening) (String.ofList values.flatten) := by
  obtain ⟨_, hns, rfl⟩ := exists_nodesOf?_of_tokens hnodes hts
  obtain ⟨front, frames, _, hfront, h₁, rfl⟩ := nodesOf?_append_iff.mp hns
  obtain ⟨_, frames₁, _, hopening, h₂, rfl⟩ := nodesOf?_cons_iff.mp h₁
  obtain ⟨_, frames₂, _, hleave, h₃, rfl⟩ := nodesOf?_append_iff.mp h₂
  obtain ⟨_, frames₃, rest, hclosing, hrest, rfl⟩ := nodesOf?_cons_iff.mp h₃
  obtain ⟨rfl, values, hvalues, rfl⟩ := (leave_texts_iff htexts).mp hleave
  refine ⟨values, hvalues, ?_⟩
  rw [← hfront.countP_isOpening]
  cases hopening with
  | text read => cases read
  | opening read =>
    cases hclosing with
    | text read => cases read
    | closing f outer => exact hasValue_joinText front _ values _ _ rest

/-- An empty element has the empty text as its value. -/
theorem hasValue_of_empty (hnodes : nodes? xml = some nodes) {content : List Char}
    (hts : tokens? (dropMark xml.toList) = some (before ++ .opening content true :: back)) :
    HasValue nodes (before.countP Token.isOpening) "" := by
  obtain ⟨_, hns, rfl⟩ := exists_nodesOf?_of_tokens hnodes hts
  obtain ⟨front, frames, _, hfront, h₁, rfl⟩ := nodesOf?_append_iff.mp hns
  obtain ⟨_, frames₁, rest, hempty, hrest, rfl⟩ := nodesOf?_cons_iff.mp h₁
  rw [← hfront.countP_isOpening]
  cases hempty with
  | text read => cases read
  | empty read => exact hasValue_joinText front _ [] _ _ rest

end Value

/-- A document with layout put in between its tags, any number of times, has the same nodes or is
refused like it; and in a document that is not refused every element without elements in it has its
text as its value, the parts of it joined in order. -/
theorem reads_texts_without_layout (xml : String) :
    (∀ xml', Relation.ReflTransGen Respaces xml xml' → Cursor.ofXml xml' = Cursor.ofXml xml) ∧
    ∀ c, Cursor.ofXml xml = .ok c →
      (∀ before content texts name back, (∀ u ∈ texts, u.isTag = false) →
        tokens? (dropMark xml.toList) =
          some (before ++ .opening content false :: (texts ++ .closing name :: back)) →
        ∃ values, texts.mapM Token.value? = some values ∧
          HasValue c.rest (before.countP Token.isOpening) (String.ofList values.flatten)) ∧
      ∀ before content back,
        tokens? (dropMark xml.toList) = some (before ++ .opening content true :: back) →
        HasValue c.rest (before.countP Token.isOpening) "" := by
  refine ⟨?_, ?_⟩
  · intro xml' h
    induction h with
    | refl => rfl
    | tail _ hstep ih =>
      rw [← ih]
      unfold Cursor.ofXml
      rw [nodes?_of_respaces hstep]
  · intro c hc
    obtain ⟨nodes, hnodes, rfl⟩ : ∃ nodes, nodes? xml = some nodes ∧ c = ⟨none, nodes⟩ := by
      unfold Cursor.ofXml at hc
      split at hc
      · rename_i nodes hnodes
        exact ⟨nodes, hnodes, (Except.ok.inj hc).symm⟩
      · cases hc
    exact ⟨fun _ _ _ _ _ htexts hts => hasValue_of_texts hnodes htexts hts,
      fun _ _ _ hts => hasValue_of_empty hnodes hts⟩

section Note

/-- A tag without attributes. -/
theorem openTag?_bare (frames : List Frame) {name : List Char}
    (h : name.all (!isSpace ·) = true) :
    openTag? frames name = some (⟨resolve (bindingsOf frames) name, localName name, []⟩,
      ⟨name, bindingsOf frames⟩) := by
  have hname : name.takeWhile (!isSpace ·) = name := by
    simpa using Text.takeWhile_append_of_ends h (Text.ends_nil _)
  have hnone : rawAttributes? [] = some [] := by
    rw [rawAttributes?]
    rfl
  simp [openTag?, hname, hnone]

def noteHead : String := "<Note><Seen/>"

def noteComment : String := "<!-- by all -->"

/-- An element whose text has an entity, a section and a comment in it. -/
def noteBody : String := "<Body> x &amp;<![CDATA[<]]><!-- or --> y</Body></Note>"

def denseNote : String := noteHead ++ noteComment ++ noteBody

def airyNote : String := noteHead ++ "\n" ++ noteComment ++ "\t" ++ noteBody

def noteTexts : List Token := [.text " x &amp;".toList, .verbatim ['<'], .text " y".toList]

def noteEnd : List Token := [.closing "Body".toList, .closing "Note".toList]

theorem tokens?_noteBody :
    tokens? noteBody.toList = some (.opening "Body".toList false :: (noteTexts ++ noteEnd)) := by
  simp [noteBody, noteTexts, noteEnd, tokens?, markup?, tagLength?, lengthBefore?, closingName,
    isSpace]

theorem tokens?_noteComment :
    tokens? (noteComment.toList ++ noteBody.toList) = tokens? noteBody.toList := by
  simp [noteComment, tokens?, markup?, lengthBefore?]

theorem tokens?_denseNote : tokens? (dropMark denseNote.toList) =
    some (.opening "Note".toList false :: .opening "Seen".toList true ::
      .opening "Body".toList false :: (noteTexts ++ noteEnd)) := by
  simp [denseNote, noteHead, dropMark, tokens?, markup?, tagLength?, tokens?_noteComment,
    tokens?_noteBody]

theorem respaces_denseNote : Relation.ReflTransGen Respaces denseNote airyNote := by
  have hnewline : '<' ∉ ['\n'] ∧ (Token.text ['\n']).IsLayout :=
    isLayout_of_blank (List.forall_mem_singleton.mpr rfl)
  have htab : '<' ∉ ['\t'] ∧ (Token.text ['\t']).IsLayout :=
    isLayout_of_blank (List.forall_mem_singleton.mpr rfl)
  have hfirst : Respaces denseNote (noteHead ++ "\n" ++ noteComment ++ noteBody) := by
    refine ⟨noteHead.toList, ['\n'], noteComment.toList ++ noteBody.toList, by simp [denseNote],
      by simp, ⟨[.opening "Note".toList false], .opening "Seen".toList true, [], [],
        .opening "Body".toList false, noteTexts ++ noteEnd, ?_, ?_, rfl, rfl, by simp, by simp⟩,
      hnewline⟩
    · simp [noteHead, dropMark, tokens?, markup?, tagLength?]
    · rw [tokens?_noteComment, tokens?_noteBody]
      rfl
  have hsecond : Respaces (noteHead ++ "\n" ++ noteComment ++ noteBody) airyNote := by
    refine ⟨(noteHead ++ "\n" ++ noteComment).toList, ['\t'], noteBody.toList, by simp,
      by simp [airyNote], ⟨[.opening "Note".toList false], .opening "Seen".toList true,
        [.text ['\n']], [], .opening "Body".toList false, noteTexts ++ noteEnd, ?_, ?_, rfl, rfl, ?_,
        by simp⟩, htab⟩
    · simp [noteHead, noteComment, dropMark, tokens?, markup?, tagLength?, lengthBefore?]
    · rw [tokens?_noteBody]
      rfl
    · simpa using hnewline.2
  exact (Relation.ReflTransGen.single hfirst).tail hsecond

theorem unescape?_noteTexts : unescape? " x &amp;".toList = some " x &".toList ∧
    unescape? " y".toList = some " y".toList := by
  refine ⟨?_, unescape?_of_not_mem (by decide)⟩
  simp [unescape?, endsEntity, entity?]

theorem mapM_noteTexts :
    noteTexts.mapM Token.value? = some [" x &".toList, ['<'], " y".toList] := by
  simp only [noteTexts, List.mapM_cons, List.mapM_nil, Token.value?, unescape?_noteTexts]
  rfl

theorem denseNote_accepted : ∃ c, Cursor.ofXml denseNote = .ok c := by
  rw [Cursor.ofXml, nodes?_of_tokens tokens?_denseNote]
  simp (disch := decide) only [noteTexts, noteEnd, List.cons_append, List.nil_append, nodesOf?,
    openTag?_bare, unescape?_noteTexts]
  exact ⟨_, rfl⟩

theorem denseNote_reads :
    Relation.ReflTransGen Respaces denseNote airyNote ∧ ∃ c, Cursor.ofXml denseNote = .ok c ∧
      Cursor.ofXml airyNote = .ok c ∧ HasValue c.rest 1 "" ∧ HasValue c.rest 2 " x &< y" := by
  obtain ⟨hlayout, hvalues⟩ := reads_texts_without_layout denseNote
  obtain ⟨c, hc⟩ := denseNote_accepted
  obtain ⟨htexts, hempty⟩ := hvalues c hc
  obtain ⟨values, hread, hbody⟩ := htexts
    [.opening "Note".toList false, .opening "Seen".toList true] "Body".toList noteTexts
    "Body".toList [.closing "Note".toList] (by decide) tokens?_denseNote
  obtain rfl := Option.some.inj (hread.symm.trans mapM_noteTexts)
  exact ⟨respaces_denseNote, c, hc, (hlayout airyNote respaces_denseNote).trans hc,
    hempty [.opening "Note".toList false] "Seen".toList _ tokens?_denseNote, hbody⟩

end Note

end ObjectTracking.Markup
