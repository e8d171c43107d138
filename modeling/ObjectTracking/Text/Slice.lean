import ObjectTracking.Text.Utf8
import ObjectTracking.Trap
/-!
Texts by offsets of bytes. A text is cut where a character begins or at its end, and nowhere else.
-/
set_option autoImplicit false

namespace ObjectTracking.Text
variable {n : Nat} {a b cs : List Char}

def byteLength (cs : List Char) : Nat := (toUtf8 cs).length

/-- The byte at an offset, which must be there. -/
def byteAt (offset : Nat) (cs : List Char) : Attempt UInt8 :=
  match (toUtf8 cs)[offset]? with
  | some b => .done b
  | none => .trapped .vacant

/-- Cuts a text in two at an offset, if it can be cut there. -/
def cut? : Nat → List Char → Option (List Char × List Char)
  | 0, cs => some ([], cs)
  | _ + 1, [] => none
  | n + 1, c :: cs =>
    if c.utf8Size ≤ n + 1 then (cut? (n + 1 - c.utf8Size) cs).map fun (a, b) => (c :: a, b)
    else none

/-- The part of a text before an offset at which it must be possible to cut it. -/
def before (offset : Nat) (cs : List Char) : Attempt (List Char) :=
  match cut? offset cs with
  | some (a, _) => .done a
  | none => .trapped .cut

def after (offset : Nat) (cs : List Char) : Attempt (List Char) :=
  match cut? offset cs with
  | some (_, b) => .done b
  | none => .trapped .cut

def offsetOf? (p : Char → Bool) : List Char → Option Nat
  | [] => none
  | c :: cs => if p c then some 0 else (offsetOf? p cs).map (· + c.utf8Size)

@[simp] theorem byteLength_nil : byteLength [] = 0 := rfl

@[simp] theorem byteLength_cons (c : Char) (cs : List Char) :
    byteLength (c :: cs) = c.utf8Size + byteLength cs := by
  simp [byteLength, toUtf8]

@[simp] theorem byteLength_append (a b : List Char) :
    byteLength (a ++ b) = byteLength a + byteLength b := by
  simp [byteLength, toUtf8]

theorem cut?_append (a b : List Char) : cut? (byteLength a) (a ++ b) = some (a, b) := by
  induction a with
  | nil => simp [cut?]
  | cons c a ih =>
    have hc := c.utf8Size_pos
    obtain ⟨k, hk⟩ : ∃ k, byteLength (c :: a) = k + 1 :=
      ⟨byteLength (c :: a) - 1, by rw [byteLength_cons]; omega⟩
    rw [byteLength_cons] at hk
    have hrest : k + 1 - c.utf8Size = byteLength a := by omega
    rw [byteLength_cons, hk, List.cons_append, cut?, if_pos (by omega), hrest, ih]
    rfl

theorem eq_append_of_cut? (h : cut? n cs = some (a, b)) : cs = a ++ b ∧ byteLength a = n := by
  induction n, cs using cut?.induct generalizing a with
  | case1 cs =>
    rw [cut?] at h
    cases h
    exact ⟨rfl, rfl⟩
  | case2 n =>
    rw [cut?] at h
    cases h
  | case3 n c cs hc ih =>
    rw [cut?, if_pos hc, Option.map_eq_some_iff] at h
    obtain ⟨⟨a', b'⟩, hcut, heq⟩ := h
    cases heq
    obtain ⟨rfl, hlength⟩ := ih hcut
    exact ⟨rfl, by rw [byteLength_cons, hlength]; omega⟩
  | case4 n c cs hc =>
    rw [cut?, if_neg hc] at h
    cases h

theorem cut?_eq_some_iff : cut? n cs = some (a, b) ↔ cs = a ++ b ∧ byteLength a = n :=
  ⟨eq_append_of_cut?, fun ⟨hcs, hn⟩ => hcs ▸ hn ▸ cut?_append a b⟩

theorem after_eq_done_iff : after n cs = .done b ↔ ∃ a, cs = a ++ b ∧ byteLength a = n := by
  unfold after
  constructor
  · intro h
    split at h
    · rename_i a b' hcut
      cases h
      exact ⟨a, eq_append_of_cut? hcut⟩
    · cases h
  · rintro ⟨a, rfl, rfl⟩
    rw [cut?_append]

/-- A text gets shorter where something is cut off it. -/
theorem length_lt_of_after (h : after (n + 1) cs = .done b) : b.length < cs.length := by
  obtain ⟨a, rfl, ha⟩ := after_eq_done_iff.mp h
  cases a with
  | nil => cases ha
  | cons c a => simp only [List.cons_append, List.length_cons, List.length_append]; omega

end ObjectTracking.Text
