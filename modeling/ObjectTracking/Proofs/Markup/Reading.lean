import ObjectTracking.Markup.Cursor
import ObjectTracking.Proofs.Markup.StartTag
import ObjectTracking.Proofs.Markup.Writing
/-!
A document that was written is read as what was written. Its tags come back with the namespaces, names
and attributes they were given, and its texts as the characters they hold, whatever these are; texts
that stand next to each other are one, and blank text beside an element is layout.
-/
set_option autoImplicit false

namespace ObjectTracking.Markup
open Text (Ends ends_nil ends_cons)

/-- The characters of a document are read, inside some elements, as nodes. -/
def Reads (frames : List Frame) (cs : List Char) (ns : List Node) : Prop :=
  (tokens? cs).bind (nodesOf? frames) = some ns

def chars (ps : List Piece) : List Char := ps.flatMap fun p => p.render.toList

/-- The characters of a text that is written as one or more pieces. -/
theorem chars_text (s : String) : chars (if s.isEmpty then [] else [.text s]) = escape s.toList := by
  cases hs : s.isEmpty with
  | true =>
    obtain rfl := String.isEmpty_iff.mp hs
    rfl
  | false => simp [chars, Piece.render]

theorem escape_append (cs cs' : List Char) : escape (cs ++ cs') = escape cs ++ escape cs' :=
  List.flatMap_append

/-- The node of a text before anybody asks whether it is layout. -/
def runNodes (s : String) : List Node := if s.isEmpty then [] else [.text s]

/-- The nodes of the rest of a content with the text that stands before it, layout among them. -/
def Mixed.joinedAfter (before : String) : Mixed → List Node
  | nothing => runNodes before
  | text s rest => rest.joinedAfter (before ++ s)
  | element ns name attributes content rest =>
    runNodes before ++ .opening ⟨some ns, name, attributes⟩ ::
      (content.joinedAfter "" ++ .closing (some ns) name :: rest.joinedAfter "")

namespace Reads
variable {frames : List Frame} {cs rest : List Char} {ns : List Node} {space : Namespace}
  {name : String} {attributes : List (String × String)}

theorem of_token {frames' : List Frame} {t : Token} {front : List Node}
    (htokens : tokens? cs = (t :: ·) <$> tokens? rest)
    (hnodes : ∀ ts, nodesOf? frames (t :: ts) = (front ++ ·) <$> nodesOf? frames' ts)
    (h : Reads frames' rest ns) : Reads frames cs (front ++ ns) := by
  unfold Reads at h ⊢
  rw [htokens]
  cases ht : tokens? rest with
  | none => simp [ht] at h
  | some ts =>
    rw [ht, Option.bind_some] at h
    simp [hnodes, h]

theorem closing_eq (space : Namespace) {f : Frame} (hname : f.name = (space.fullName name).toList)
    (hf : Declares f.bindings) : f.closing = .closing (some space) name := by
  rw [Frame.closing, hname, resolve_fullName hf, localName_fullName]

section Pieces
variable {tag : Tag} {f : Frame}

theorem opening (hname : IsName name) (hattributes : ∀ a ∈ attributes, IsKey a.1)
    (htag : openTag? frames (Piece.tagText ⟨space.fullName name, attributes⟩).toList =
      some (tag, f)) (h : Reads (f :: frames) rest ns) :
    Reads frames ((Piece.opening ⟨space.fullName name, attributes⟩).render.toList ++ rest)
      (.opening tag :: ns) := by
  have htokens := tokens?_opening space hname hattributes rest
  have hnodes : ∀ ts, nodesOf? frames
      (.opening (Piece.tagText ⟨space.fullName name, attributes⟩).toList false :: ts) =
        ([.opening tag] ++ ·) <$> nodesOf? (f :: frames) ts := by
    intro ts
    simp [nodesOf?, htag]
  exact of_token (by simpa [Piece.render] using htokens) hnodes h

theorem empty (hname : IsName name) (hattributes : ∀ a ∈ attributes, IsKey a.1)
    (htag : openTag? frames (Piece.tagText ⟨space.fullName name, attributes⟩).toList =
      some (tag, f)) (h : Reads frames rest ns) :
    Reads frames ((Piece.empty ⟨space.fullName name, attributes⟩).render.toList ++ rest)
      (.opening tag :: f.closing :: ns) := by
  have htokens := tokens?_empty space hname hattributes rest
  have hnodes : ∀ ts, nodesOf? frames
      (.opening (Piece.tagText ⟨space.fullName name, attributes⟩).toList true :: ts) =
        ([.opening tag, f.closing] ++ ·) <$> nodesOf? frames ts := by
    intro ts
    simp [nodesOf?, htag]
  exact of_token (by simpa [Piece.render] using htokens) hnodes h

theorem closing (hname : IsName name) (hf : f.name = (space.fullName name).toList)
    (h : Reads frames rest ns) :
    Reads (f :: frames) ((Piece.closing (space.fullName name)).render.toList ++ rest)
      (f.closing :: ns) := by
  have htokens := tokens?_closing space hname rest
  have hnodes : ∀ ts, nodesOf? (f :: frames) (.closing (space.fullName name).toList :: ts) =
      ([f.closing] ++ ·) <$> nodesOf? frames ts := by
    intro ts
    simp [nodesOf?, hf]
  exact of_token (by simpa [Piece.render] using htokens) hnodes h

/-- Text up to the next tag is one node. -/
theorem run (s : String) (hrest : Ends (· != '<') rest) (h : Reads frames rest ns) :
    Reads frames (escape s.toList ++ rest) (runNodes s ++ ns) := by
  unfold runNodes
  cases hs : s.isEmpty with
  | true =>
    obtain rfl := String.isEmpty_iff.mp hs
    exact h
  | false =>
    have hne : s.toList ≠ [] := by
      intro hnil
      simp [String.toList_eq_nil_iff.mp hnil] at hs
    have htokens := tokens?_text (escape_ne_nil hne) (not_mem_escape (by simp)) hrest
    have hnodes : ∀ ts, nodesOf? frames (.text (escape s.toList) :: ts) =
        ([.text s] ++ ·) <$> nodesOf? frames ts := by
      intro ts
      simp [nodesOf?, unescape?_escape]
    exact of_token htokens hnodes h

end Pieces

theorem ends_render_closing (name : String) (rest : List Char) :
    Ends (· != '<') ((Piece.closing name).render.toList ++ rest) := by
  simpa [Piece.render] using ends_cons (by decide) _

theorem ends_wrap (t : PendingTag) (c : Mixed) (rest : List Char) :
    Ends (· != '<') (chars (Mixed.wrap t c c.pieces) ++ rest) := by
  unfold Mixed.wrap
  split <;> simpa [chars, Piece.render] using ends_cons (by decide) _

theorem wrap {tag : Tag} {f : Frame} {c : Mixed} (hname : IsName name)
    (hattributes : ∀ a ∈ attributes, IsKey a.1)
    (htag : openTag? frames (Piece.tagText ⟨space.fullName name, attributes⟩).toList =
      some (tag, f)) (hf : f.name = (space.fullName name).toList)
    (hclosing : f.closing = .closing (some space) name)
    (hcontent : ∀ {rest ns}, Ends (· != '<') rest → Reads (f :: frames) rest ns →
      Reads (f :: frames) (chars c.pieces ++ rest) (c.joinedAfter "" ++ ns))
    (h : Reads frames rest ns) :
    Reads frames (chars (Mixed.wrap ⟨space.fullName name, attributes⟩ c c.pieces) ++ rest)
      (.opening tag :: (c.joinedAfter "" ++ .closing (some space) name :: ns)) := by
  rw [← hclosing]
  cases hc : c.isNothing with
  | true =>
    have hnodes : c.joinedAfter "" = [] := by
      cases c <;> first | rfl | cases hc
    simpa [Mixed.wrap, hc, chars, hnodes] using empty hname hattributes htag h
  | false =>
    have hinner := hcontent (ends_render_closing _ _) (closing hname hf h)
    simpa [Mixed.wrap, hc, chars] using opening hname hattributes htag hinner

/-- A content is read with the text that was written right before it. -/
theorem content {c : Mixed} (hc : c.WellFormed) (hframes : Declares (bindingsOf frames))
    (before : String) (hrest : Ends (· != '<') rest) (h : Reads frames rest ns) :
    Reads frames (escape before.toList ++ (chars c.pieces ++ rest))
      (c.joinedAfter before ++ ns) := by
  induction c generalizing frames before rest ns with
  | nothing => exact run before hrest h
  | text s more ih =>
    have hchars : escape before.toList ++ (chars (Mixed.text s more).pieces ++ rest) =
        escape (before ++ s).toList ++ (chars more.pieces ++ rest) := by
      have hpieces : chars (Mixed.text s more).pieces = escape s.toList ++ chars more.pieces := by
        rw [← chars_text, chars, Mixed.pieces, List.flatMap_append]
        rfl
      rw [hpieces, String.toList_append, escape_append]
      simp
    rw [hchars]
    exact ih hc hframes (before ++ s) hrest h
  | element space name attributes content more ihcontent ihmore =>
    obtain ⟨hname, hattributes, hcontent, hmore⟩ := hc
    have hafter := ihmore hmore hframes "" hrest h
    have htag := openTag?_tagText space hname hattributes hframes
    have hinner : Declares (bindingsOf (⟨(space.fullName name).toList, bindingsOf frames⟩ :: frames)) :=
      hframes
    have helement := wrap hname hattributes.isKey htag rfl (closing_eq space rfl hframes)
      (fun hends hr => ihcontent hcontent hinner "" hends hr) hafter
    have hrun := run before (ends_wrap _ content _) helement
    simpa [Mixed.pieces, Mixed.joinedAfter, chars, escape] using hrun

end Reads

section Layout
variable {space : Namespace} {name : String} {tail : List Node}

theorem joinText_runNodes_opening (s : String) (t : Tag) (tail : List Node) :
    joinText (runNodes s ++ .opening t :: tail) = runNodes s ++ .opening t :: joinText tail := by
  unfold runNodes
  split <;> rfl

theorem joinText_runNodes_closing (s : String) (ns : Option Namespace) (name : String)
    (tail : List Node) : joinText (runNodes s ++ .closing ns name :: tail) =
      runNodes s ++ .closing ns name :: joinText tail := by
  unfold runNodes
  split <;> rfl

/-- Between the tags of a content there is one text at most. -/
theorem joinText_joinedAfter (c : Mixed) (before : String) :
    joinText (c.joinedAfter before ++ .closing (some space) name :: tail) =
      c.joinedAfter before ++ .closing (some space) name :: joinText tail := by
  induction c generalizing space name before tail with
  | nothing => exact joinText_runNodes_closing before (some space) name tail
  | text s rest ih => exact ih (before ++ s)
  | element space' name' attributes content rest ihcontent ihrest =>
    simp only [Mixed.joinedAfter, List.cons_append, List.append_assoc, joinText_runNodes_opening,
      ihcontent, ihrest]

theorem dropLayout_runNodes_opening (afterOpening : Bool) (s : String) (t : Tag)
    (tail : List Node) : dropLayout afterOpening (runNodes s ++ .opening t :: tail) =
      textNodes false s ++ .opening t :: dropLayout true tail := by
  unfold runNodes textNodes
  cases hs : s.isEmpty with
  | true => rfl
  | false =>
    simp only [Bool.false_eq_true, if_false, List.singleton_append, dropLayout, startsWithClosing]
    cases Text.isBlankText s.toList <;> simp

theorem dropLayout_runNodes_closing (afterOpening : Bool) (s : String) (ns : Option Namespace)
    (name : String) (tail : List Node) :
    dropLayout afterOpening (runNodes s ++ .closing ns name :: tail) =
      textNodes afterOpening s ++ .closing ns name :: dropLayout false tail := by
  unfold runNodes textNodes
  cases hs : s.isEmpty with
  | true => rfl
  | false =>
    simp only [Bool.false_eq_true, if_false, List.singleton_append, dropLayout, startsWithClosing]
    cases Text.isBlankText s.toList <;> cases afterOpening <;> simp

/-- What is left of a content without layout. -/
theorem dropLayout_joinedAfter (c : Mixed) (first : Bool) (before : String) :
    dropLayout first (c.joinedAfter before ++ .closing (some space) name :: tail) =
      c.nodesAfter first before ++ .closing (some space) name :: dropLayout false tail := by
  induction c generalizing space name first before tail with
  | nothing => exact dropLayout_runNodes_closing first before (some space) name tail
  | text s rest ih => exact ih first (before ++ s)
  | element space' name' attributes content rest ihcontent ihrest =>
    simp only [Mixed.joinedAfter, Mixed.nodesAfter, List.cons_append, List.append_assoc,
      dropLayout_runNodes_opening, ihcontent, ihrest]

theorem levels_nodes {ns : Option Namespace} (c : Content) :
    Forest.levels (c.nodes ++ .closing ns name :: tail) =
      (c.forest, (Forest.levels tail).1 :: (Forest.levels tail).2) := by
  induction c generalizing ns name tail with
  | nothing => rfl
  | text s =>
    unfold Content.nodes Content.forest Forest.ofText
    split <;> rfl
  | element name' attributes content rest ihcontent ihrest =>
    simp only [Content.nodes, Content.forest, List.cons_append, List.append_assoc, Forest.levels,
      ihcontent, ihrest]

end Layout

theorem Reads.nil : Reads [] [] [] := by
  rw [Reads, tokens?]
  rfl

/-- The pieces of an element begin with a bracket, so that no byte order mark stands there. -/
theorem dropMark_chars_wrap (t : PendingTag) (c : Mixed) :
    dropMark (chars (Mixed.wrap t c c.pieces)) = chars (Mixed.wrap t c c.pieces) := by
  unfold Mixed.wrap
  split <;> simp [chars, Piece.render, dropMark]

theorem nodes?_of_reads {xml : String} {ns : List Node} (hmark : dropMark xml.toList = xml.toList)
    (h : Reads [] xml.toList ns) : nodes? xml = some (dropLayout false (joinText ns)) := by
  rw [Reads, Option.bind_eq_some_iff] at h
  obtain ⟨ts, htokens, hnodes⟩ := h
  simp [nodes?, hmark, htokens, hnodes]

section Root
variable {name : String} {attributes : List (String × String)}

def rootText (ns : Namespace) (name : String) (attributes : List (String × String)) (c : Mixed) :
    String :=
  String.join ((Mixed.wrap ⟨ns.fullName name, Writer.declarations ++ attributes⟩ c c.pieces).map
    Piece.render)

theorem nodes?_rootText (ns : Namespace) {c : Mixed} (hname : IsName name)
    (hattributes : AreAttributes attributes) (hc : c.WellFormed) :
    nodes? (rootText ns name attributes c) =
      some (.opening ⟨some ns, name, attributes⟩ :: (c.nodes ++ [.closing (some ns) name])) := by
  have hkeys : ∀ a ∈ Writer.declarations ++ attributes, IsKey a.1 := by
    intro a ha
    rcases List.mem_append.mp ha with ha | ha
    · exact isKey_declarations a ha
    · exact hattributes.isKey a ha
  have hinner : Declares (bindingsOf [⟨(ns.fullName name).toList, rootBindings⟩]) :=
    declares_rootBindings
  have hread := Reads.wrap hname hkeys (openTag?_root hname hattributes) rfl
    (Reads.closing_eq ns rfl declares_rootBindings)
    (fun hrest h => Reads.content hc hinner "" hrest h) Reads.nil
  rw [List.append_nil] at hread
  have hchars : (rootText ns name attributes c).toList = chars (Mixed.wrap
      ⟨ns.fullName name, Writer.declarations ++ attributes⟩ c c.pieces) := by
    rw [rootText, String.toList_join, List.flatMap_map]
    rfl
  have hnodes := nodes?_of_reads (by rw [hchars]; exact dropMark_chars_wrap _ c)
    (by rw [hchars]; exact hread)
  have hlayout : dropLayout false (joinText (.opening ⟨some ns, name, attributes⟩ ::
      (c.joinedAfter "" ++ [.closing (some ns) name]))) =
        .opening ⟨some ns, name, attributes⟩ :: (c.nodes ++ [.closing (some ns) name]) := by
    simp only [joinText, joinText_joinedAfter, dropLayout, dropLayout_joinedAfter, Mixed.nodes]
  rw [hnodes, hlayout]

/-- A document that is one element with a content is read to the start of that element, with the
content before the reader. -/
theorem ofXml_document {c : Content} (hname : IsName name) (hattributes : AreAttributes attributes)
    (hc : c.WellFormed) : ∃ text cursor, (Encoding.element .types name
        (.ofCalls (attributeCalls attributes ++ c.calls))).document = (.ok text, []) ∧
      Cursor.ofXml text >>= Cursor.advance = .ok cursor ∧
      cursor.site = ⟨some (Content.tag name attributes), c.forest⟩ := by
  refine ⟨rootText .types name attributes c.mixed, ⟨some (.opening (Content.tag name attributes)),
    c.nodes ++ [.closing (some .types) name]⟩, ?_, ?_, ?_⟩
  · have hcalls : (Mixed.element .types name attributes c.mixed .nothing).calls =
        .opening .types name :: ((attributeCalls attributes ++ c.calls) ++ [.closing]) := by
      simp [Mixed.calls, c.calls_mixed]
    have hroot := Writer.foldlM_root [] .types name attributes c.mixed
    rw [hcalls] at hroot
    rw [Encoding.element_ofCalls, Encoding.document_ofCalls hroot, Writer.finish_root]
    rfl
  · have hnodes := nodes?_rootText .types hname hattributes (Content.wellFormed_mixed hc)
    rw [Mixed.nodes, Content.nodesAfter_mixed hc (.inl rfl)] at hnodes
    rw [Cursor.ofXml, hnodes]
    rfl
  · simp only [Cursor.site, Cursor.tag?, Forest.ofNodes, levels_nodes]

/-- Whatever is written as one element is accepted by the writer and read again: the start of the
element, the nodes of its content, and its end. -/
theorem ofXml_written (ns : Namespace) {content : Mixed} (hname : IsName name)
    (hattributes : AreAttributes attributes) (hcontent : content.WellFormed) :
    ∃ w text, (Mixed.element ns name attributes content .nothing).calls.foldlM Writer.take {} =
        .ok w ∧
      w.finish = .ok text ∧
      Cursor.ofXml text = .ok ⟨none, .opening ⟨some ns, name, attributes⟩ ::
        (content.nodes ++ [.closing (some ns) name])⟩ := by
  refine ⟨_, rootText ns name attributes content, Writer.foldlM_root [] ns name attributes content,
    Writer.finish_root _ content, ?_⟩
  rw [Cursor.ofXml, nodes?_rootText ns hname hattributes hcontent]

/-- An envelope with layout, an element that holds nothing but blanks, and a text in three parts that
needs escaping. -/
def envelope : Mixed :=
  .text "\n  " <| .element .messages "Gap" [] (.text " " (.text "\t" .nothing)) <|
    .element .types "Body" [("BodyType", "\"<'")] (.text "a < b" (.text "" (.text " & c" .nothing))) <|
      .text " " .nothing

theorem ofXml_envelope : IsName "Envelope" ∧ AreAttributes [("Id", "]]>&amp;")] ∧
    envelope.WellFormed ∧
    ∃ w text, (Mixed.element .soap "Envelope" [("Id", "]]>&amp;")] envelope .nothing).calls.foldlM
        Writer.take {} = .ok w ∧
      w.finish = .ok text ∧
      Cursor.ofXml text = .ok ⟨none,
        [.opening ⟨some .soap, "Envelope", [("Id", "]]>&amp;")]⟩,
          .opening ⟨some .messages, "Gap", []⟩, .text " \t", .closing (some .messages) "Gap",
          .opening ⟨some .types, "Body", [("BodyType", "\"<'")]⟩, .text "a < b & c",
          .closing (some .types) "Body",
        .closing (some .soap) "Envelope"]⟩ := by
  have hid : AreAttributes [("Id", "]]>&amp;")] := ⟨by decide, by decide⟩
  have htype : AreAttributes [("BodyType", "\"<'")] := ⟨by decide, by decide⟩
  have hwell : envelope.WellFormed :=
    ⟨by decide, areAttributes_nil, trivial, by decide, htype, trivial, trivial⟩
  exact ⟨by decide, hid, hwell, ofXml_written .soap (by decide) hid hwell⟩

end Root

end ObjectTracking.Markup
