import ObjectTracking.Property.Basic
/-!
What a property holds: the values that its shape takes, and the form in which it takes them.
-/
set_option autoImplicit false

namespace ObjectTracking

/-- How a shape without wrappers takes a value. Only a scalar is put into another form. -/
inductive Shape.Takes (property : String) : Shape → Value → Value → Prop where
  | scalar {codec : Codec} {s s' : Scalar} (normal : codec.normalise property s = .ok s') :
      Takes property (.scalar codec) (.scalar s) (.scalar s')
  | dateTime (zoneUri : Option String) (t : Time.WallClock) :
      Takes property (.dateTime zoneUri) (.scalar (.dateTime t)) (.scalar (.dateTime t))
  | composite (c : Composite) : Takes property (.composite c.layout) (.composite c) (.composite c)
  | collection (c : Collection) :
      Takes property (.collection c.layout c.element) (.collection c) (.collection c)

theorem Shape.Takes.eq_collection {property : String} {shape : Shape} {v : Value} {c : Collection}
    (h : shape.Takes property v (.collection c)) : v = .collection c := by
  cases h
  rfl

theorem Property.normalise_takes {q : Property} {v v' : Value} (hv : v.isNull = false)
    (h : q.normalise v = .ok v') : q.shape.innermost.Takes q.name v v' := by
  unfold normalise Shape.normalise at h
  rw [hv] at h
  simp only [Bool.false_eq_true, if_false] at h
  split at h
  · rename_i codec s hs
    rw [hs]
    cases hn : codec.normalise q.name s with
    | error e => simp [hn, Except.map] at h
    | ok s' =>
      obtain rfl : Value.scalar s' = v' := by simpa [hn, Except.map] using h
      exact .scalar hn
  · rename_i uri t hs
    obtain rfl := Except.ok.inj h
    rw [hs]
    exact .dateTime uri t
  · rename_i l c hs
    split at h
    · rename_i hl
      obtain rfl := Except.ok.inj h
      rw [hs, ← hl]
      exact .composite c
    · cases h
  · rename_i l element c hs
    split at h
    · rename_i hl
      obtain rfl := Except.ok.inj h
      rw [hs, ← hl.1, ← hl.2]
      exact .collection c
    · cases h
  · cases h

end ObjectTracking
