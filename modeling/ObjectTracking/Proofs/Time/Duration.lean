import ObjectTracking.Proofs.Decimal.Binary64
import ObjectTracking.Proofs.Text.Slice
import ObjectTracking.Time.Bias
/-!
Durations and what is read of them as a bias. The reader takes each number for a double, refuses
the large ones and checks its sums; without a point in the text it still counts every second.
-/
set_option autoImplicit false

namespace ObjectTracking.Time.Bias
open Text Attempt Decimal
variable {inTime any any' : Bool} {sum sum' : Int} {cs run rest : List Char} {t : Trap}

inductive Period : Bool → Type
  | day : Period false
  | hour : Period true
  | minute : Period true
  | second : Period true

namespace Period

def letter : Period inTime → Char
  | day => 'D'
  | hour => 'H'
  | minute => 'M'
  | second => 'S'

def seconds : Period inTime → Nat
  | day => 86400
  | hour => 3600
  | minute => 60
  | second => 1

def unit : Period inTime → Float
  | day => 86400.0
  | hour => 3600.0
  | minute => 60.0
  | second => 1.0

theorem letter_lt (p : Period inTime) : p.letter.toNat < 128 := by
  cases p <;> decide

theorem isNumeral_letter (p : Period inTime) : isNumeral p.letter = false := by
  cases p <;> rfl

theorem seconds_pos (p : Period inTime) : 0 < p.seconds := by
  cases p <;> decide

theorem seconds_le (p : Period inTime) : p.seconds ≤ 86400 := by
  cases p <;> decide

theorem form_unit (p : Period inTime) : form p.unit = whole p.seconds := by
  cases p <;> rfl

theorem unit?_leadByte_eq_some_iff {c : Char} {u : Float} :
    unit? inTime (leadByte c) = some u ↔ ∃ p : Period inTime, c = p.letter ∧ p.unit = u := by
  constructor
  · intro h
    unfold unit? at h
    split at h
    · cases h
      exact ⟨day, eq_of_ofUInt8_leadByte (by decide) ‹_›, rfl⟩
    · cases h
      exact ⟨hour, eq_of_ofUInt8_leadByte (by decide) ‹_›, rfl⟩
    · cases h
      exact ⟨minute, eq_of_ofUInt8_leadByte (by decide) ‹_›, rfl⟩
    · cases h
      exact ⟨second, eq_of_ofUInt8_leadByte (by decide) ‹_›, rfl⟩
    · cases h
  · rintro ⟨p, rfl, rfl⟩
    cases p <;> rfl

end Period

structure Part (inTime : Bool) where
  digits : List Char
  isDigits : Text.isDigits digits = true
  period : Period inTime

namespace Part

def text (p : Part inTime) : List Char := p.digits ++ [p.period.letter]

def seconds (p : Part inTime) : Nat := number p.digits * p.period.seconds

theorem isDigit_of_mem (p : Part inTime) {c : Char} (hc : c ∈ p.digits) : c.isDigit = true :=
  Text.isDigit_of_mem p.isDigits hc

theorem digits_eq_cons (p : Part inTime) : ∃ c ds, p.digits = c :: ds ∧ c.isDigit = true := by
  have hmem := fun c => p.isDigit_of_mem (c := c)
  have hdigits := p.isDigits
  cases h : p.digits with
  | nil =>
    rw [h] at hdigits
    cases hdigits
  | cons c ds => exact ⟨c, ds, rfl, hmem c (h ▸ List.mem_cons_self)⟩

end Part

/-! ### One part -/

theorem wholeSeconds_ne_trapped (n unit : Float) (t : Trap) : wholeSeconds n unit ≠ .trapped t := by
  unfold wholeSeconds
  dsimp only
  split <;> simp

theorem nonneg_of_wholeSeconds {n unit : Float} {k : Int} (h : wholeSeconds n unit = .done k) :
    0 ≤ k := by
  unfold wholeSeconds at h
  dsimp only at h
  split at h <;> cases h
  exact Int.natCast_nonneg _

theorem form_limit : form 2147483647.0 = whole 2147483647 := by
  rw [whole_of_pos (by decide)]
  rfl

/-- The seconds of a run of digits are exact unless they are refused. -/
theorem wholeSeconds_digits (h : isDigits run = true) (p : Period inTime) :
    ∃ n, unsigned? false run = some n ∧ wholeSeconds n p.unit =
      if number run * p.seconds ≤ 2147483647 then .done (number run * p.seconds : Nat)
      else .refused := by
  obtain ⟨n, hn, hexact, hlarge⟩ := form_of_unsigned? h
  refine ⟨n, hn, ?_⟩
  have hpos := p.seconds_pos
  have hle := p.seconds_le
  unfold wholeSeconds
  dsimp only
  obtain hsmall | hbig := Nat.lt_or_ge (number run) (2 ^ 31)
  · have hproduct : number run * p.seconds < 2 ^ 53 :=
      Nat.lt_of_le_of_lt (Nat.mul_le_mul (Nat.le_of_lt hsmall) hle) (by decide)
    have hform := form_mul_whole (hexact (by omega)) p.form_unit hproduct
    rw [isFinite_of_form hform, toUInt64_of_form hform hproduct]
    simp only [lt_iff_of_form form_limit hform, Bool.not_true, Bool.false_or, decide_eq_true_eq]
    by_cases hlimit : number run * p.seconds ≤ 2147483647
    · rw [if_neg (Nat.not_lt.mpr hlimit), if_pos hlimit]
    · rw [if_pos (Nat.lt_of_not_le hlimit), if_neg hlimit]
  · have hform := form_mul_atLeast (by decide) (hlarge hbig) p.form_unit hpos (by omega)
    have hlt : (2147483647.0 : Float) < n * p.unit := lt_of_atLeast form_limit (by decide) hform
    have hproduct : number run ≤ number run * p.seconds := Nat.le_mul_of_pos_right _ hpos
    rw [if_pos (by simp [hlt]), if_neg (by omega)]

def added (sum : Int) (run : List Char) (unit : Float) : Attempt Int := do
  let n ← ofOption (unsigned? false run)
  narrowed 64 (sum + (← wholeSeconds n unit))

/-- A run of numerals is cut off before its unit, and the rest behind it. -/
theorem step_letter (hne : run ≠ []) (hrun : ∀ c ∈ run, isNumeral c = true) (p : Period inTime) :
    step inTime sum (run ++ p.letter :: rest) =
      (added sum run p.unit >>= fun sum => done (sum, rest)) := by
  have hstop : offsetOf? (fun c => !isNumeral c) (run ++ p.letter :: rest) = some (byteLength run) :=
    offsetOf?_eq_some_iff.mpr ⟨run, p.letter, rest, rfl, fun c hc => by simp [hrun c hc],
      by simp [p.isNumeral_letter], rfl⟩
  have hunit : unit? inTime (leadByte p.letter) = some p.unit :=
    Period.unit?_leadByte_eq_some_iff.mpr ⟨p, rfl, rfl⟩
  have hinside : ¬(byteLength run = 0 ∨ byteLength run = byteLength (run ++ p.letter :: rest)) := by
    have hpos : 0 < byteLength run := by
      cases run with
      | nil => exact absurd rfl hne
      | cons c run =>
        have := c.utf8Size_pos
        rw [byteLength_cons]
        omega
    have := p.letter.utf8Size_pos
    rw [byteLength_append, byteLength_cons]
    omega
  unfold step
  simp only [hstop, Option.getD_some, if_neg hinside, before_append, byteAt_append, done_bind, hunit,
    after_succ p.letter_lt, added, ofOption]
  cases unsigned? false run with
  | none => rfl
  | some n =>
    simp only [done_bind]
    cases wholeSeconds n p.unit <;> rfl

/-- Whatever does not begin with a run of numerals and a unit is refused. -/
theorem step_cases (inTime : Bool) (sum : Int) (cs : List Char) : step inTime sum cs = .refused ∨
    ∃ run, ∃ p : Period inTime, ∃ rest, cs = run ++ p.letter :: rest ∧ run ≠ [] ∧
      ∀ c ∈ run, isNumeral c = true := by
  cases hstop : offsetOf? (fun c => !isNumeral c) cs with
  | none =>
    left
    unfold step
    rw [hstop]
    exact if_pos (.inr rfl)
  | some stop =>
    obtain ⟨run, u, rest, rfl, hrun, -, rfl⟩ := offsetOf?_eq_some_iff.mp hstop
    cases hunit : unit? inTime (leadByte u) with
    | none =>
      left
      simp only [step, hstop, Option.getD_some, before_append, byteAt_append, done_bind, hunit]
      split
      · rfl
      · cases unsigned? false run <;> rfl
    | some x =>
      obtain ⟨p, rfl, -⟩ := Period.unit?_leadByte_eq_some_iff.mp hunit
      by_cases hne : run = []
      · subst hne
        left
        unfold step
        rw [hstop]
        exact if_pos (.inl rfl)
      · exact .inr ⟨run, p, rest, rfl, hne, fun c hc => by simpa using hrun c hc⟩

theorem added_ne_trapped (sum : Int) (run : List Char) (unit : Float) (t : Trap) :
    added sum run unit ≠ .trapped t := by
  simp [added, bind_eq_trapped_iff, wholeSeconds_ne_trapped]

theorem bounds_of_added {unit : Float} (hsum : 0 ≤ sum) (h : added sum run unit = .done sum') :
    0 ≤ sum' ∧ FitsIn 64 sum' := by
  simp only [added, bind_eq_done_iff, narrowed_eq_done_iff] at h
  obtain ⟨n, -, k, hk, hfits, rfl⟩ := h
  have := nonneg_of_wholeSeconds hk
  exact ⟨by omega, hfits⟩

theorem step_ne_trapped (inTime : Bool) (sum : Int) (cs : List Char) (t : Trap) :
    step inTime sum cs ≠ .trapped t := by
  obtain hrefused | ⟨run, p, rest, rfl, hne, hrun⟩ := step_cases inTime sum cs
  · simp [hrefused]
  · simp [step_letter hne hrun p, bind_eq_trapped_iff, added_ne_trapped]

theorem bounds_of_step (hsum : 0 ≤ sum) (h : step inTime sum cs = .done (sum', rest)) :
    0 ≤ sum' ∧ FitsIn 64 sum' := by
  obtain hrefused | ⟨run, p, rest', rfl, hne, hrun⟩ := step_cases inTime sum cs
  · rw [hrefused] at h
    cases h
  · rw [step_letter hne hrun p, bind_eq_done_iff] at h
    obtain ⟨sum, hadded, h⟩ := h
    cases h
    exact bounds_of_added hsum hadded

/-- Digits and a unit are counted exactly. -/
theorem added_part (p : Part inTime) (sum : Int) : added sum p.digits p.period.unit =
    if p.seconds ≤ 2147483647 then narrowed 64 (sum + p.seconds) else .refused := by
  obtain ⟨n, hn, hwhole⟩ := wholeSeconds_digits p.isDigits p.period
  rw [added, hn, ofOption, done_bind, hwhole, Part.seconds]
  split <;> rfl

theorem step_part (p : Part inTime) (hsum : 0 ≤ sum) (hbound : sum + p.seconds ≤ 86399) :
    step inTime sum (p.text ++ rest) = .done (sum + p.seconds, rest) := by
  obtain ⟨c, ds, hds, -⟩ := p.digits_eq_cons
  have hne : p.digits ≠ [] := by simp [hds]
  have hrun : ∀ c ∈ p.digits, isNumeral c = true := fun c hc => by
    simp [isNumeral, p.isDigit_of_mem hc]
  have hfits : FitsIn 64 (sum + p.seconds) := fitsIn_64_iff.mpr (by omega)
  rw [Part.text, List.append_assoc, List.singleton_append,
    step_letter hne hrun, added_part, if_pos (by omega), narrowed, if_pos hfits, done_bind]

/-- Without a point, what is counted is a part. -/
theorem exists_part_of_step (hpoint : '.' ∉ cs) (h : step inTime sum cs = .done (sum', rest)) :
    ∃ p : Part inTime, cs = p.text ++ rest ∧ sum' = sum + p.seconds := by
  obtain hrefused | ⟨run, p, rest', rfl, hne, hrun⟩ := step_cases inTime sum cs
  · rw [hrefused] at h
    cases h
  · have hdigits : isDigits run = true := by
      rw [isDigits, Bool.and_eq_true, List.all_eq_true, Bool.not_eq_true', List.isEmpty_eq_false_iff]
      refine ⟨hne, fun c hc => ?_⟩
      have hc' : c ≠ '.' := fun heq => hpoint (heq ▸ List.mem_append_left _ hc)
      simpa [isNumeral, hc'] using hrun c hc
    have hadded := added_part ⟨run, hdigits, p⟩ sum
    rw [step_letter hne hrun p, bind_eq_done_iff] at h
    obtain ⟨s, hs, h⟩ := h
    cases h
    rw [hadded] at hs
    split at hs
    · rw [narrowed_eq_done_iff] at hs
      exact ⟨⟨run, hdigits, p⟩, by simp [Part.text], hs.2.symm⟩
    · cases hs

/-! ### All parts -/

theorem scan_nil (inTime : Bool) (sum : Int) (any : Bool) :
    scan inTime sum any [] = .done (sum, any) := by
  rw [scan]

theorem scan_time (sum : Int) (any : Bool) (cs : List Char) :
    scan false sum any ('T' :: cs) = scan true sum any cs := by
  rw [scan]
  rfl

theorem scan_cons {c : Char} (hc : c ≠ 'T') : scan inTime sum any (c :: cs) =
    (step inTime sum (c :: cs) >>= fun (sum, rest) => scan inTime sum true rest) := by
  rw [scan]
  · split <;> simp [*]
  · exact fun h => hc h

/-- What holds at the end of a scan, and is kept when a part or the `T` is put before it. -/
theorem scan_induction {P : Bool → Int → Bool → List Char → Int → Bool → Prop}
    (nil : ∀ inTime sum any, P inTime sum any [] sum any)
    (time : ∀ sum any cs sum' any', P true sum any cs sum' any' →
      P false sum any ('T' :: cs) sum' any')
    (part : ∀ inTime sum any cs sum₁ rest sum' any', step inTime sum cs = .done (sum₁, rest) →
      P inTime sum₁ true rest sum' any' → P inTime sum any cs sum' any')
    (h : scan inTime sum any cs = .done (sum', any')) : P inTime sum any cs sum' any' := by
  induction inTime, sum, any, cs using scan.induct with
  | case1 inTime sum any =>
    rw [scan_nil] at h
    cases h
    exact nil _ _ _
  | case2 sum any rest =>
    rw [scan] at h
    cases h
  | case3 inTime sum any rest hfalse ih =>
    obtain rfl : inTime = false := by simpa using hfalse
    rw [scan_time] at h
    exact time _ _ _ _ _ (ih h)
  | case4 inTime sum any c cs hc sum₁ rest hstep ih =>
    rw [scan_cons hc, hstep, done_bind] at h
    exact part _ _ _ _ _ _ _ _ hstep (ih h)
  | case5 inTime sum any c cs hc hstep =>
    rw [scan_cons hc, hstep] at h
    cases h
  | case6 inTime sum any c cs hc t hstep =>
    exact absurd hstep (step_ne_trapped _ _ _ _)

theorem scan_ne_trapped (inTime : Bool) (sum : Int) (any : Bool) (cs : List Char) (t : Trap) :
    scan inTime sum any cs ≠ .trapped t := by
  induction inTime, sum, any, cs using scan.induct with
  | case1 => simp [scan_nil]
  | case2 => simp [scan]
  | case3 inTime sum any rest hfalse ih =>
    obtain rfl : inTime = false := by simpa using hfalse
    rwa [scan_time]
  | case4 inTime sum any c cs hc sum₁ rest hstep ih => rwa [scan_cons hc, hstep, done_bind]
  | case5 inTime sum any c cs hc hstep => simp [scan_cons hc, hstep]
  | case6 inTime sum any c cs hc t hstep => exact absurd hstep (step_ne_trapped _ _ _ _)

theorem bounds_of_scan (h : scan inTime sum any cs = .done (sum', any')) (hsum : 0 ≤ sum)
    (hfits : FitsIn 64 sum) : 0 ≤ sum' ∧ FitsIn 64 sum' := by
  refine scan_induction (P := fun _ sum _ _ sum' _ => 0 ≤ sum → FitsIn 64 sum →
    0 ≤ sum' ∧ FitsIn 64 sum') ?_ ?_ ?_ h hsum hfits
  · exact fun _ _ _ hsum hfits => ⟨hsum, hfits⟩
  · exact fun _ _ _ _ _ ih => ih
  · intro _ _ _ _ _ _ _ _ hstep ih hsum _
    obtain ⟨hsum₁, hfits₁⟩ := bounds_of_step hsum hstep
    exact ih hsum₁ hfits₁

def textOf (parts : List (Part inTime)) : List Char := parts.flatMap Part.text

def total (parts : List (Part inTime)) : Nat := (parts.map Part.seconds).sum

def clockText : Option (List (Part true)) → List Char
  | none => []
  | some parts => 'T' :: textOf parts

theorem scan_part (p : Part inTime) (hsum : 0 ≤ sum) (hbound : sum + p.seconds ≤ 86399) :
    scan inTime sum any (p.text ++ rest) = scan inTime (sum + p.seconds) true rest := by
  obtain ⟨c, ds, hds, hdigit⟩ := p.digits_eq_cons
  have hT : c ≠ 'T' := by
    rintro rfl
    cases hdigit
  have hstep : step inTime sum (p.text ++ rest) = _ := step_part p hsum hbound
  rw [Part.text, hds, List.cons_append, List.cons_append] at hstep ⊢
  rw [scan_cons hT, hstep, done_bind]

/-- Parts of less than a day are added up. -/
theorem scan_textOf (parts : List (Part inTime)) (hsum : 0 ≤ sum)
    (hbound : sum + total parts ≤ 86399) : scan inTime sum any (textOf parts ++ rest) =
      scan inTime (sum + total parts) (any || !parts.isEmpty) rest := by
  induction parts generalizing sum any with
  | nil => simp [textOf, total]
  | cons p parts ih =>
    have htotal : total (p :: parts) = p.seconds + total parts := by simp [total]
    have htext : textOf (p :: parts) ++ rest = p.text ++ (textOf parts ++ rest) := by simp [textOf]
    rw [htotal] at hbound ⊢
    rw [htext, scan_part p hsum (by omega), ih (by omega) (by omega)]
    simp [Int.add_assoc]

/-- The text is made of parts, with which the sum is reached. -/
def IsSum (inTime : Bool) (sum : Int) (any : Bool) (cs : List Char) (sum' : Int) (any' : Bool) :
    Prop :=
  ∃ parts : List (Part inTime), ∃ clock, (inTime = true → clock = none) ∧
    cs = textOf parts ++ clockText clock ∧ sum' = sum + total parts + total (clock.getD []) ∧
    (any' = true ↔ any = true ∨ parts ≠ [] ∨ clock.getD [] ≠ [])

theorem IsSum.time (h : IsSum true sum any cs sum' any') :
    IsSum false sum any ('T' :: cs) sum' any' := by
  obtain ⟨parts, clock, hclock, rfl, rfl, hany⟩ := h
  obtain rfl := hclock rfl
  refine ⟨[], some parts, by simp, ?_, ?_, ?_⟩
  · simp [textOf, clockText]
  · simp [total]
  · simpa using hany

theorem IsSum.part (p : Part inTime) (h : IsSum inTime (sum + p.seconds) true rest sum' any') :
    IsSum inTime sum any (p.text ++ rest) sum' any' := by
  obtain ⟨parts, clock, hclock, rfl, rfl, hany⟩ := h
  refine ⟨p :: parts, clock, hclock, ?_, ?_, ?_⟩
  · simp [textOf]
  · simp [total, Int.add_assoc]
  · simpa using hany

/-- Without a point, whatever is scanned is made of parts. -/
theorem isSum_of_scan (h : scan inTime sum any cs = .done (sum', any')) (hpoint : '.' ∉ cs) :
    IsSum inTime sum any cs sum' any' := by
  refine scan_induction (P := fun inTime sum any cs sum' any' => '.' ∉ cs →
    IsSum inTime sum any cs sum' any') ?_ ?_ ?_ h hpoint
  · intro _ _ _ _
    exact ⟨[], none, by simp, by simp [textOf, clockText], by simp [total], by simp⟩
  · intro _ _ _ _ _ ih hpoint
    exact (ih fun hmem => hpoint (List.mem_cons_of_mem _ hmem)).time
  · intro _ _ _ _ _ _ _ _ hstep ih hpoint
    obtain ⟨p, rfl, rfl⟩ := exists_part_of_step hpoint hstep
    exact (ih fun hmem => hpoint (List.mem_append_right _ hmem)).part p

/-! ### The whole text -/

/-- A duration as it stands in a text, with what comes before the `T` and after it. -/
structure Duration where
  negative : Bool
  days : List (Part false)
  clock : Option (List (Part true))

namespace Duration

def body (d : Duration) : List Char := textOf d.days ++ clockText d.clock

def text (d : Duration) : List Char := (if d.negative then ['-'] else []) ++ 'P' :: d.body

def seconds (d : Duration) : Nat := total d.days + total (d.clock.getD [])

/-- The days may be left out, and so may the rest, but not all of it. -/
def HasPart (d : Duration) : Prop := d.days ≠ [] ∨ d.clock.getD [] ≠ []

/-- The seconds east of UTC that a duration stands for as a bias. -/
def east (d : Duration) : Int := if d.negative then d.seconds else -d.seconds

end Duration

theorem scan_body (d : Duration) (hbound : d.seconds ≤ 86399) :
    ∃ any, scan false 0 false d.body = .done (d.seconds, any) ∧ (any = true ↔ d.HasPart) := by
  obtain ⟨negative, days, clock⟩ := d
  simp only [Duration.seconds] at hbound
  rw [Duration.body, Duration.seconds, Duration.HasPart]
  have hdays : (0 : Int) + total days ≤ 86399 := by omega
  rw [scan_textOf days (Int.le_refl 0) hdays, Int.zero_add]
  cases clock with
  | none => exact ⟨_, scan_nil _ _ _, by simp⟩
  | some parts =>
    have hclock : scan true (total days) (false || !days.isEmpty) (textOf parts ++ []) = _ :=
      scan_textOf parts (Int.natCast_nonneg _) (by simp only [Option.getD_some] at hbound; omega)
    rw [List.append_nil, scan_nil] at hclock
    exact ⟨_, (scan_time _ _ _).trans hclock, by simp⟩

theorem ofSum_eq {negative : Bool} (hsum : 0 ≤ sum) (hfits : FitsIn 64 sum) :
    ofSum negative sum =
      (narrowed 32 (if negative then sum else -sum) >>= fun n => ofOption (Offset.east? n)) := by
  have hneg : FitsIn 64 (-sum) := by
    rw [fitsIn_64_iff] at hfits ⊢
    omega
  cases negative with
  | false =>
    simp only [ofSum, Bool.false_eq_true, if_false, pure_eq_done, done_bind, within_of_fitsIn hneg]
  | true =>
    simp only [ofSum, if_true, within_of_fitsIn hneg, done_bind, Int.neg_neg,
      within_of_fitsIn hfits]

theorem ofSum_eq_done_iff {negative : Bool} {o : Offset} (hsum : 0 ≤ sum) (hfits : FitsIn 64 sum) :
    ofSum negative sum = .done o ↔ o.seconds = if negative then sum else -sum := by
  rw [ofSum_eq hsum hfits, bind_eq_done_iff]
  simp only [narrowed_eq_done_iff, ofOption_eq_done_iff, Offset.east?_eq_some_iff]
  constructor
  · rintro ⟨n, ⟨-, rfl⟩, hn⟩
    exact hn
  · intro h
    have := o.bounded
    exact ⟨_, ⟨fitsIn_32_iff.mpr (by omega), rfl⟩, h⟩

theorem ofSum_ne_trapped {negative : Bool} (hsum : 0 ≤ sum) (hfits : FitsIn 64 sum) (t : Trap) :
    ofSum negative sum ≠ .trapped t := by
  simp [ofSum_eq hsum hfits, bind_eq_trapped_iff]

theorem unsigned_ne_trapped (negative : Bool) (cs : List Char) (t : Trap) :
    unsigned negative cs ≠ .trapped t := by
  unfold unsigned
  split
  · rename_i cs
    simp only [ne_eq, bind_eq_trapped_iff, scan_ne_trapped, false_or, not_exists, not_and]
    rintro ⟨sum, any⟩ hscan
    obtain ⟨hsum, hfits⟩ := bounds_of_scan hscan (Int.le_refl 0) (by decide)
    cases any
    · simp
    · exact ofSum_ne_trapped hsum hfits t
  · simp

/-- No text whatever makes the reader of biases stop. -/
theorem read_ne_trapped (s : List Char) (t : Trap) : read s ≠ .trapped t := by
  unfold read
  split
  · exact unsigned_ne_trapped true _ t
  · exact unsigned_ne_trapped false _ t

theorem unsigned_of_body (d : Duration) (hpart : d.HasPart) {o : Offset} (ho : o.seconds = d.east) :
    unsigned d.negative ('P' :: d.body) = .done o := by
  have hbound : d.seconds ≤ 86399 := by
    have := o.bounded
    rw [ho, Duration.east] at this
    split at this <;> omega
  obtain ⟨any, hscan, hany⟩ := scan_body d hbound
  obtain rfl := hany.mpr hpart
  have hfits : FitsIn 64 (d.seconds : Int) := fitsIn_64_iff.mpr (by omega)
  rw [unsigned, hscan, done_bind]
  exact (ofSum_eq_done_iff (Int.natCast_nonneg _) hfits).mpr ho

theorem exists_duration_of_unsigned {negative : Bool} {o : Offset} (hpoint : '.' ∉ cs)
    (h : unsigned negative cs = .done o) : ∃ d : Duration, d.negative = negative ∧
      cs = 'P' :: d.body ∧ d.HasPart ∧ o.seconds = d.east := by
  unfold unsigned at h
  split at h
  · rename_i cs
    rw [bind_eq_done_iff] at h
    obtain ⟨⟨sum, any⟩, hscan, h⟩ := h
    obtain ⟨hsum, hfits⟩ := bounds_of_scan hscan (Int.le_refl 0) (by decide)
    obtain ⟨days, clock, -, rfl, hsum', hany⟩ :=
      isSum_of_scan hscan fun hmem => hpoint (List.mem_cons_of_mem _ hmem)
    cases any with
    | false => cases h
    | true =>
      refine ⟨⟨negative, days, clock⟩, rfl, rfl, by simpa [Duration.HasPart] using hany, ?_⟩
      rw [(ofSum_eq_done_iff hsum hfits).mp h, Duration.east, Duration.seconds, hsum']
      simp
  · cases h

theorem read_eq_done_iff {s : List Char} {o : Offset} (hpoint : '.' ∉ s) :
    read s = .done o ↔ ∃ d : Duration, trim s = d.text ∧ d.HasPart ∧ o.seconds = d.east := by
  have htrim : '.' ∉ trim s := fun hmem => hpoint (mem_of_mem_trim hmem)
  unfold read
  constructor
  · intro h
    split at h
    · rename_i cs hcs
      obtain ⟨d, hnegative, rfl, hpart, ho⟩ :=
        exists_duration_of_unsigned (fun hmem => htrim (hcs ▸ List.mem_cons_of_mem _ hmem)) h
      exact ⟨d, by simp [hcs, Duration.text, hnegative], hpart, ho⟩
    · obtain ⟨d, hnegative, hcs, hpart, ho⟩ := exists_duration_of_unsigned htrim h
      exact ⟨d, by simp [hcs, Duration.text, hnegative], hpart, ho⟩
  · rintro ⟨d, htext, hpart, ho⟩
    have hread := unsigned_of_body d hpart ho
    rw [htext, Duration.text]
    cases hnegative : d.negative with
    | true => rwa [hnegative] at hread
    | false => rwa [hnegative] at hread

/-- Without a point, a bias is read exactly where the text without the blanks around it is a
duration of less than a day with at least one part, as the seconds that it stands for; no number
of digits or parts is too large for the reader. -/
theorem read_durations {s : String} (hpoint : '.' ∉ s.toList) :
    (∀ t, read s.toList ≠ .trapped t) ∧
    ∀ n, (∃ o, read s.toList = .done o ∧ o.seconds = n) ↔
      ∃ d : Duration, trim s.toList = d.text ∧ d.HasPart ∧ d.seconds ≤ 86399 ∧ n = d.east := by
  refine ⟨read_ne_trapped _, fun n => ?_⟩
  simp only [read_eq_done_iff hpoint]
  constructor
  · rintro ⟨o, ⟨d, htext, hpart, ho⟩, rfl⟩
    have := o.bounded
    refine ⟨d, htext, hpart, ?_, ho⟩
    rw [ho, Duration.east] at this
    split at this <;> omega
  · rintro ⟨d, htext, hpart, hbound, rfl⟩
    have heast : -86400 < d.east ∧ d.east < 86400 := by
      rw [Duration.east]
      split <;> omega
    exact ⟨⟨d.east, heast⟩, ⟨d, htext, hpart, rfl⟩, rfl⟩

/-- Eight hours are read as an offset to the west. -/
theorem read_durations_eight_hours : '.' ∉ "PT8H".toList ∧
    ∃ o, read "PT8H".toList = .done o ∧ o.seconds = -28800 :=
  have hpoint : '.' ∉ "PT8H".toList := by decide
  ⟨hpoint, ((read_durations hpoint).2 (-28800)).mpr
    ⟨⟨false, [], some [⟨['8'], rfl, .hour⟩]⟩, by decide, .inr (by simp), by decide, by decide⟩⟩

end ObjectTracking.Time.Bias
