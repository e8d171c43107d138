import ObjectTracking.Property.Reader
import ObjectTracking.Proofs.Composite.Loading
import ObjectTracking.Proofs.Markup.Reader
import ObjectTracking.Proofs.Markup.Tree
/-!
Values read node by node: every reader comes to rest on the end of its element, and leaves what
reading the tree of the element leaves.
-/
set_option autoImplicit false

namespace ObjectTracking
open Markup

namespace Composite
variable {c : Cursor}

theorem closes_readBy (cat : Catalog) (session : Session)
    {children : Composite → Passage c Composite} (hchildren : ∀ v, (children v).Closes)
    (v : Composite) : (readBy cat session c children v).Closes := by
  refine Passage.closes_startingWith _ ?_
  intro v
  split
  · exact hchildren v
  · exact c.closes_readText v _

theorem closes_readElement (cat : Catalog) (session : Session)
    {children : Composite → Passage c Composite} (hchildren : ∀ v, (children v).Closes)
    (tag : Tag) (v : Composite) : (readElement cat session c children tag v).Closes := by
  unfold readElement
  dsimp only
  split
  · exact c.closes_pass v
  · split
    · exact c.closes_readText v _
    · exact (closes_readBy cat session hchildren _).map _
    · exact c.closes_pass v

theorem closes_readElements (cat : Catalog) (session : Session) (c : Cursor) (v : Composite) :
    (readElements cat session c v).Closes := by
  induction hlength : c.rest.length using Nat.strongRecOn generalizing c v with
  | ind n ih =>
    subst hlength
    rw [readElements]
    refine Cursor.closes_readElements ?_ v
    intro c' h
    exact closes_readElement cat session fun v => ih _ h c' v rfl

theorem closes_read (cat : Catalog) (session : Session) (c : Cursor) (v : Composite) :
    (v.read cat session c).Closes :=
  closes_readBy cat session (closes_readElements cat session c) v

theorem stands_storeText (session : Session) (ix : Nat) (name : String) (codec : Codec)
    (text : String) (v : Composite) : (v.storeText session ix name codec text).Stands := by
  unfold storeText
  split
  split
  · exact (Progress.stands_done _).remarked _
  · exact (Progress.stands_halt _ _).remarked _

theorem stands_loadAttributes (session : Session) (tag? : Option Tag) (ix : Nat)
    (fields : List LayoutField) (v : Composite) :
    (loadAttributes session tag? ix fields v).Stands := by
  induction fields generalizing ix v with
  | nil => exact Progress.stands_done v
  | cons f fields ih =>
    refine Progress.Stands.andThen ?_ (ih (ix + 1))
    split
    · exact stands_storeText session ix f.name _ _ v
    · exact Progress.stands_done v

theorem readText_eq_storeValue (session : Session) (ix : Nat) (name : String) (codec : Codec)
    (c : Cursor) (v : Composite) :
    (c.readText v fun text => v.storeText session ix name codec text) =
      .ofTree c (v.storeValue session ix name codec c.site) :=
  Cursor.readText_eq (fun text => stands_storeText session ix name codec text v) v

/-- A field that is no scalar takes nothing from the text, which is read all the same. -/
theorem readText_done_eq (v : Composite) :
    (c.readText v fun _ => .done v) = .ofTree c (match c.site.value with
      | .error e => .halt v e
      | .ok _ => .done v) := by
  rw [Cursor.readText_eq fun _ => Progress.stands_done v]
  cases c.site.value <;> rfl

theorem readBy_eq (cat : Catalog) (session : Session) {children : Composite → Passage c Composite}
    {children' : Composite → Progress Composite}
    (hchildren : ∀ v, children v = .ofTree c (children' v)) (v : Composite) :
    readBy cat session c children v = .ofTree c (loadBy cat session c.site children' v) := by
  unfold readBy loadBy
  refine Passage.startingWith_eq (stands_loadAttributes session c.tag? 0 _ v) ?_
  intro v'
  cases (cat.layout v.layout).textPosition? with
  | none => exact hchildren v'
  | some ix =>
    cases hf : (cat.layout v.layout).fields[ix]? with
    | none =>
      simp only [hf]
      exact readText_done_eq v'
    | some f =>
      obtain ⟨name, placement, kind⟩ := f
      cases kind with
      | scalar codec =>
        simp only [hf]
        exact readText_eq_storeValue session ix name codec c v'
      | nested inner =>
        simp only [hf]
        exact readText_done_eq v'

def loadElement (cat : Catalog) (session : Session) (tag : Tag) (content : Forest)
    (v : Composite) : Progress Composite :=
  let l := cat.layout v.layout
  match l.elementPosition? tag.name with
  | none => content.skip v
  | some ix =>
    match l.fields[ix]? with
    | some ⟨name, _, .scalar codec⟩ => v.storeValue session ix name codec ⟨some tag, content⟩
    | some ⟨_, _, .nested inner⟩ =>
      let n := loadBy cat session ⟨some tag, content⟩ (loadElements cat session content)
        (new cat inner)
      n.map fun n' => if n.stop?.isSome then v else v.setAt ix (.nested n')
    | none => content.skip v

theorem loadElements_eq_walk (cat : Catalog) (session : Session) (content : Forest)
    (v : Composite) :
    loadElements cat session content v = content.walk (loadElement cat session) v := by
  induction content generalizing v with
  | closed => rfl
  | cut => rfl
  | text _ rest ih => rw [loadElements, Forest.walk, ih]
  | element tag content rest _ ih =>
    rw [loadElements, Forest.walk]
    simp only [ih]
    rfl

theorem layout_loadElement (cat : Catalog) (session : Session) (tag : Tag) (content : Forest)
    (v : Composite) : (v.loadElement cat session tag content).state.layout = v.layout := by
  unfold loadElement
  dsimp only
  split
  · rw [Forest.state_skip]
  · split
    · rename_i hf
      exact (layout_keptByReading cat).storeValue rfl hf rfl _ _
    · rw [Progress.state_map]
      split <;> rfl
    · rw [Forest.state_skip]

theorem readElement_eq (cat : Catalog) (session : Session)
    {children : Composite → Passage c Composite}
    (hchildren : ∀ v, children v =
      .ofTree c (loadElements cat session (Forest.ofNodes c.rest) v))
    {tag : Tag} (htag : c.current = some (.opening tag)) (v : Composite) :
    readElement cat session c children tag v =
      .ofTree c (loadElement cat session tag (Forest.ofNodes c.rest) v) := by
  have hsite := Cursor.site_eq htag
  unfold readElement loadElement
  cases hpos : (cat.layout v.layout).elementPosition? tag.name with
  | none =>
    simp only [hpos]
    exact c.pass_eq v
  | some ix =>
    cases hf : (cat.layout v.layout).fields[ix]? with
    | none =>
      simp only [hpos, hf]
      exact c.pass_eq v
    | some f =>
      obtain ⟨name, placement, kind⟩ := f
      cases kind with
      | scalar codec =>
        simp only [hpos, hf, ← hsite]
        exact readText_eq_storeValue session ix name codec c v
      | nested inner =>
        simp only [hpos, hf, readBy_eq cat session hchildren, hsite,
          Passage.fault?_ofTree_isSome, Passage.map_ofTree]

theorem readElements_eq (cat : Catalog) (session : Session) (c : Cursor) (v : Composite) :
    readElements cat session c v =
      .ofTree c (loadElements cat session (Forest.ofNodes c.rest) v) := by
  induction hlength : c.rest.length using Nat.strongRecOn generalizing c v with
  | ind n ih =>
    subst hlength
    rw [readElements, loadElements_eq_walk]
    refine Cursor.readElements_eq ?_ ?_ v
    · intro c' _
      exact closes_readElement cat session (closes_readElements cat session c')
    · intro c' h tag v htag
      exact readElement_eq cat session (fun v => ih _ h c' v rfl) htag v

theorem read_eq (cat : Catalog) (session : Session) (c : Cursor) (v : Composite) :
    v.read cat session c = .ofTree c (v.load cat session c.site) :=
  readBy_eq cat session (readElements_eq cat session c) v

end Composite

namespace Collection

theorem closes_readItem (cat : Catalog) (session : Session) (c : Cursor) (tag : Tag)
    (v : Collection) : (v.readItem cat session c tag).Closes := by
  unfold readItem
  split
  · exact (Composite.closes_read cat session c _).map _
  · exact c.closes_pass v

theorem closes_read (cat : Catalog) (session : Session) (c : Cursor) (v : Collection) :
    (v.read cat session c).Closes :=
  Cursor.closes_readElements (fun c' _ => closes_readItem cat session c') _

theorem read_eq (cat : Catalog) (session : Session) (c : Cursor) (v : Collection) :
    v.read cat session c = .ofTree c (v.load cat session (Forest.ofNodes c.rest)) := by
  refine Cursor.readElements_eq (fun c' _ => closes_readItem cat session c') ?_ _
  intro c' _ tag v htag
  unfold readItem loadItem
  split
  · simp only [Composite.read_eq, Cursor.site_eq htag, Passage.fault?_ofTree_isSome,
      Passage.map_ofTree]
  · exact c'.pass_eq v

end Collection

namespace Shape

theorem closes_readWrapper (wrapper : String) {c : Cursor}
    {inner : Option Value → Passage c Value} (hinner : ∀ existing, (inner existing).Closes)
    (tag : Tag) (s : Option Value × Value) : (readWrapper wrapper c inner tag s).Closes := by
  unfold readWrapper
  split
  · exact (hinner s.1).map _
  · exact c.closes_pass s

theorem closes_read (cat : Catalog) (session : Session) (property : String) (shape : Shape)
    (c : Cursor) (existing : Option Value) :
    (shape.read cat session property c existing).Closes := by
  induction shape generalizing c existing with
  | scalar codec => exact c.closes_readText _ _
  | dateTime zoneUri => exact c.closes_readText _ _
  | composite l => exact (Composite.closes_read cat session c _).map _
  | collection l element => exact (Collection.closes_read cat session c _).map _
  | indexed key inner ih => exact ih c existing
  | contained wrapper inner ih =>
    exact (Cursor.closes_readElements (fun c' _ => closes_readWrapper wrapper (ih c')) _).map _

theorem stands_parsed (result : Except Fault Value) (reports : List Report) :
    (Progress.remarked reports (match result with
      | .ok v => .done v
      | .error e => .halt .null e : Progress Value)).Stands := by
  cases result with
  | ok v => exact (Progress.stands_done v).remarked reports
  | error e => exact (Progress.stands_halt _ e).remarked reports

theorem readScalar_eq (c : Cursor) (parse : String → Except Fault Value × List Report) :
    readScalar c parse = .ofTree c (readText c.site parse) := by
  have hread := Cursor.readText_eq (c := c)
    (fun text => stands_parsed (parse text).1 (parse text).2) .null
  refine hread.trans (congrArg (Passage.ofTree c) ?_)
  unfold readText
  cases c.site.value with
  | error e => rfl
  | ok text =>
    dsimp only
    cases (parse text).1 <;> rfl

theorem read_eq (cat : Catalog) (session : Session) (property : String) (shape : Shape)
    (c : Cursor) (existing : Option Value) : shape.read cat session property c existing =
      .ofTree c (shape.decode cat session property c.site existing) := by
  induction shape generalizing c existing with
  | scalar codec => exact readScalar_eq c _
  | dateTime zoneUri => exact readScalar_eq c _
  | composite l =>
    exact congrArg (Passage.map Value.composite) (Composite.read_eq cat session c _)
  | collection l element =>
    exact congrArg (Passage.map Value.collection) (Collection.read_eq cat session c _)
  | indexed key inner ih => exact ih c existing
  | contained wrapper inner ih =>
    refine congrArg (Passage.map Prod.snd) (Cursor.readElements_eq ?_ ?_ _)
    · intro c' _
      exact closes_readWrapper wrapper (inner.closes_read cat session property c')
    · intro c' _ tag s htag
      unfold readWrapper
      split
      · rw [ih, Cursor.site_eq htag, Passage.map_ofTree]
      · exact c'.pass_eq s

end Shape

namespace Property

theorem closes_read (q : Property) (cat : Catalog) (session : Session) (c : Cursor)
    (existing : Option Value) : (q.read cat session c existing).Closes :=
  q.shape.closes_read cat session q.name c existing

theorem read_eq (q : Property) (cat : Catalog) (session : Session) (c : Cursor)
    (existing : Option Value) :
    q.read cat session c existing = .ofTree c (q.decode cat session c.site existing) :=
  q.shape.read_eq cat session q.name c existing

end Property

end ObjectTracking
