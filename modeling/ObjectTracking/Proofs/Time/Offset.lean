import ObjectTracking.Proofs.Text.Slice
import ObjectTracking.Session
/-!
What spells the zone of a session. The reader cuts a text at a colon or in the middle of four bytes,
whatever the text holds; the grammar it is held against speaks of digits only.
-/
set_option autoImplicit false

namespace ObjectTracking.Time.Offset
open Text Attempt
variable {cs h m : List Char} {a b : Nat}

inductive IsSign : Char → Int → Prop
  | plus : IsSign '+' 1
  | minus : IsSign '-' (-1)

/-- The spellings of a number of hours and one of minutes. -/
inductive Clock : List Char → Nat → Nat → Prop
  | colon {h m : List Char} : isDigits h → isDigits m → Clock (h ++ ':' :: m) (number h) (number m)
  | four {h m : List Char} : isDigits h → isDigits m → h.length = 2 → m.length = 2 →
      Clock (h ++ m) (number h) (number m)
  | hours {h : List Char} : isDigits h → h.length ≠ 4 → Clock h (number h) 0

/-- The spellings of a zone, with the seconds east of UTC that they denote. -/
inductive Spells : List Char → Int → Prop
  | zulu : Spells ['Z'] 0
  | utc {u t c : Char} : u ∈ ['u', 'U'] → t ∈ ['t', 'T'] → c ∈ ['c', 'C'] → Spells [u, t, c] 0
  | signed {c : Char} {sign : Int} {cs : List Char} {h m : Nat} :
      IsSign c sign → Clock cs h m → h ≤ 14 → m < 60 → Spells (c :: cs) (sign * (h * 3600 + m * 60))

theorem ne_colon (h : isDigits cs = true) {c : Char} (hc : c ∈ cs) : c ≠ ':' := by
  rintro rfl
  exact absurd (isDigit_of_mem h hc) (by decide)

theorem number?_zero : number? ['0'] = some 0 := by decide

/-- Without a colon, hours and minutes are digits throughout. -/
theorem Clock.isDigits_of_no_colon (h : Clock cs a b) (hcolon : ':' ∉ cs) : isDigits cs = true := by
  cases h with
  | colon => simp at hcolon
  | four hh hm => exact isDigits_append hh hm
  | hours hh => exact hh

/-- With a colon, the hours stand before it and the minutes behind it. -/
theorem clock_colon_iff (hcolon : ∀ c ∈ h, (c == ':') = false) :
    Clock (h ++ ':' :: m) a b ↔ number? h = some a ∧ number? m = some b := by
  rw [number?_eq_some_iff, number?_eq_some_iff]
  constructor
  · intro hclock
    generalize hcs : h ++ ':' :: m = cs at hclock
    have hmem : ':' ∈ cs := hcs ▸ by simp
    cases hclock with
    | colon hh hm =>
      obtain ⟨rfl, -, rfl⟩ := split_unique hcolon rfl
        (fun _ hc => beq_eq_false_iff_ne.mpr (ne_colon hh hc)) rfl hcs
      exact ⟨⟨hh, rfl⟩, hm, rfl⟩
    | four hh hm => exact absurd rfl (ne_colon (isDigits_append hh hm) hmem)
    | hours hh => exact absurd rfl (ne_colon hh hmem)
  · rintro ⟨⟨hh, rfl⟩, hm, rfl⟩
    exact .colon hh hm

/-- Hours alone are of any length but four. -/
theorem clock_hours_iff (hcolon : ':' ∉ cs) (hlength : isDigits cs = true → cs.length ≠ 4) :
    Clock cs a b ↔ number? cs = some a ∧ number? ['0'] = some b := by
  rw [number?_zero, number?_eq_some_iff]
  constructor
  · intro hclock
    have hdigits := hclock.isDigits_of_no_colon hcolon
    cases hclock with
    | colon => simp at hcolon
    | four hh hm h2 m2 =>
      exact absurd (by rw [List.length_append, h2, m2]) (hlength hdigits)
    | hours hh => exact ⟨⟨hh, rfl⟩, rfl⟩
  · rintro ⟨⟨hh, rfl⟩, hb⟩
    cases hb
    exact .hours hh (hlength hh)

/-- Four bytes that can be cut in the middle are hours and minutes of two digits each. -/
theorem clock_four_iff (hcolon : ':' ∉ h ++ m) (hh2 : byteLength h = 2)
    (hlength : byteLength (h ++ m) = 4) :
    Clock (h ++ m) a b ↔ number? h = some a ∧ number? m = some b := by
  rw [number?_eq_some_iff, number?_eq_some_iff]
  constructor
  · intro hclock
    have hdigits := hclock.isDigits_of_no_colon hcolon
    generalize hcs : h ++ m = cs at hclock
    cases hclock with
    | colon => simp [hcs] at hcolon
    | @four h' m' hh hm h2 m2 =>
      have hcut := cut?_append h' m'
      rw [byteLength_of_isDigits hh, h2, ← hcs, ← hh2, cut?_append] at hcut
      cases hcut
      exact ⟨⟨hh, rfl⟩, hm, rfl⟩
    | hours hh hne =>
      rw [hcs, byteLength_of_isDigits hh] at hlength
      exact absurd hlength hne
  · rintro ⟨⟨hh, rfl⟩, hm, rfl⟩
    rw [byteLength_append, hh2, byteLength_of_isDigits hm] at hlength
    rw [byteLength_of_isDigits hh] at hh2
    exact .four hh hm hh2 (by omega)

/-- Four digits can be cut in the middle. -/
theorem length_ne_four (hcut : cut? 2 cs = none) (hdigits : isDigits cs = true) :
    cs.length ≠ 4 := by
  intro hlength
  have htwo : byteLength (cs.take 2) = 2 := by
    rw [byteLength_of_lt fun c hc => lt_of_isDigit (isDigit_of_mem hdigits (List.mem_of_mem_take hc)),
      List.length_take, hlength]
    rfl
  have hsome := cut?_append (cs.take 2) (cs.drop 2)
  rw [List.take_append_drop, htwo, hcut] at hsome
  cases hsome

/-- The text is split without a trap, and what is split spells what the grammar says. -/
theorem splitHours_spec (cs : List Char) : ∃ h m, splitHours cs = .done (h, m) ∧
    ∀ a b, Clock cs a b ↔ number? h = some a ∧ number? m = some b := by
  unfold splitHours
  split
  · rename_i colon hcolon
    obtain ⟨h, c, m, rfl, hh, hc, rfl⟩ := offsetOf?_eq_some_iff.mp hcolon
    obtain rfl : c = ':' := by simpa using hc
    rw [before_append, after_succ (by decide)]
    exact ⟨h, m, rfl, fun a b => clock_colon_iff hh⟩
  · rename_i hnone
    have hcolon : ':' ∉ cs := fun hmem => by simpa using offsetOf?_eq_none_iff.mp hnone _ hmem
    split
    · rename_i h m hcut
      obtain ⟨rfl, hh⟩ := cut?_eq_some_iff.mp hcut
      by_cases hlength : byteLength (h ++ m) = 4
      · exact ⟨h, m, by rw [if_pos hlength]; rfl, fun a b => clock_four_iff hcolon hh hlength⟩
      · exact ⟨h ++ m, ['0'], by rw [if_neg hlength]; rfl,
          fun a b => clock_hours_iff hcolon fun hh => byteLength_of_isDigits hh ▸ hlength⟩
    · rename_i hcut
      exact ⟨cs, ['0'], rfl, fun a b => clock_hours_iff hcolon (length_ne_four hcut)⟩

theorem digits32_eq_done_iff {n : Int} :
    digits32 cs = .done n ↔ ∃ k, number? cs = some k ∧ FitsIn 32 k ∧ (k : Int) = n := by
  simp [digits32, bind_eq_done_iff]

theorem digits32_ne_trapped (cs : List Char) (t : Trap) : digits32 cs ≠ .trapped t := by
  simp [digits32, bind_eq_trapped_iff]

/-- Hours and minutes in range are put together without overflow. -/
theorem ofClock_eq {sign : Int} (hsign : sign = 1 ∨ sign = -1) (a b : Nat) :
    ofClock sign a b =
      if a ≤ 14 ∧ b < 60 then .done (sign * (a * 3600 + b * 60)) else .refused := by
  unfold ofClock
  by_cases hrange : a ≤ 14 ∧ b < 60
  · have hfits : FitsIn 32 ((a : Int) * 3600) ∧ FitsIn 32 ((b : Int) * 60) ∧
        FitsIn 32 ((a : Int) * 3600 + b * 60) ∧ FitsIn 32 (sign * (a * 3600 + b * 60)) := by
      simp only [fitsIn_32_iff]
      obtain rfl | rfl := hsign <;> omega
    rw [if_neg (by omega), if_pos hrange, within_of_fitsIn hfits.1, within_of_fitsIn hfits.2.1,
      done_bind, done_bind, within_of_fitsIn hfits.2.2.1, done_bind, within_of_fitsIn hfits.2.2.2]
  · rw [if_pos (by omega), if_neg hrange]

theorem readClock_eq_done_iff {sign : Int} (hsign : sign = 1 ∨ sign = -1) {n : Int} :
    readClock sign cs = .done n ↔
      ∃ a b, Clock cs a b ∧ a ≤ 14 ∧ b < 60 ∧ sign * (a * 3600 + b * 60) = n := by
  obtain ⟨h, m, hsplit, hclock⟩ := splitHours_spec cs
  simp only [readClock, hsplit, done_bind, bind_eq_done_iff, digits32_eq_done_iff, hclock]
  constructor
  · rintro ⟨_, ⟨a, ha, -, rfl⟩, _, ⟨b, hb, -, rfl⟩, hn⟩
    rw [ofClock_eq hsign] at hn
    split at hn
    · rename_i hrange
      cases hn
      exact ⟨a, b, ⟨ha, hb⟩, hrange.1, hrange.2, rfl⟩
    · cases hn
  · rintro ⟨a, b, ⟨ha, hb⟩, ha14, hb60, hn⟩
    have hfits : FitsIn 32 a ∧ FitsIn 32 b := by
      simp only [fitsIn_32_iff]
      omega
    refine ⟨a, ⟨a, ha, hfits.1, rfl⟩, b, ⟨b, hb, hfits.2, rfl⟩, ?_⟩
    rw [ofClock_eq hsign, if_pos ⟨ha14, hb60⟩, hn]

theorem readClock_ne_trapped {sign : Int} (hsign : sign = 1 ∨ sign = -1) (cs : List Char)
    (t : Trap) : readClock sign cs ≠ .trapped t := by
  obtain ⟨h, m, hsplit, -⟩ := splitHours_spec cs
  simp only [readClock, hsplit, done_bind, ne_eq, bind_eq_trapped_iff, digits32_ne_trapped,
    digits32_eq_done_iff, false_or, not_exists, not_and]
  rintro _ ⟨a, -, -, rfl⟩ _ ⟨b, -, -, rfl⟩
  rw [ofClock_eq hsign]
  split <;> simp

theorem IsSign.eq {c : Char} {sign : Int} (h : IsSign c sign) : sign = 1 ∨ sign = -1 := by
  cases h
  · exact .inl rfl
  · exact .inr rfl

/-- A byte that stands for a sign is that sign. -/
theorem sign?_leadByte_iff {c : Char} {sign : Int} :
    sign? (leadByte c) = some sign ↔ IsSign c sign := by
  constructor
  · intro h
    unfold sign? at h
    split at h
    · rename_i hplus
      cases h
      exact eq_of_ofUInt8_leadByte (by decide) hplus ▸ .plus
    · rename_i hminus
      cases h
      exact eq_of_ofUInt8_leadByte (by decide) hminus ▸ .minus
    · cases h
  · intro h
    cases h <;> rfl

theorem eq_or_eq_of_toLower {x lower : Char} (upper : Char) (hcase : upper.val + 32 = lower.val)
    (h : x.toLower = lower) : x = lower ∨ x = upper := by
  unfold Char.toLower at h
  split at h
  · have hval : x.val + 32 = lower.val := congrArg Char.val h
    exact .inr (Char.ext ((UInt32.add_left_inj 32).mp (hval.trans hcase.symm)))
  · exact .inl h

def IsWord (cs : List Char) : Prop := (cs.map Char.toLower == ['u', 't', 'c'] || cs == ['Z']) = true

theorem spells_of_isWord (h : IsWord cs) : Spells cs 0 := by
  rw [IsWord, Bool.or_eq_true, beq_iff_eq, beq_iff_eq] at h
  obtain h | rfl := h
  · simp only [List.map_eq_cons_iff, List.map_eq_nil_iff] at h
    obtain ⟨u, _, rfl, hu, t, _, rfl, ht, c, _, rfl, hc, rfl⟩ := h
    have hu := eq_or_eq_of_toLower 'U' rfl hu
    have ht := eq_or_eq_of_toLower 'T' rfl ht
    have hc := eq_or_eq_of_toLower 'C' rfl hc
    exact .utc (by simpa using hu) (by simpa using ht) (by simpa using hc)
  · exact .zulu

/-- What a text spells is told by its sign unless it is a word. -/
theorem Spells.word_or_signed {n : Int} (h : Spells cs n) :
    IsWord cs ∧ n = 0 ∨ ∃ c sign rest a b, cs = c :: rest ∧ IsSign c sign ∧
      Clock rest a b ∧ a ≤ 14 ∧ b < 60 ∧ sign * (a * 3600 + b * 60) = n := by
  cases h with
  | zulu => exact .inl ⟨rfl, rfl⟩
  | utc hu ht hc =>
    refine .inl ⟨?_, rfl⟩
    simp only [List.mem_cons, List.not_mem_nil, or_false] at hu ht hc
    rcases hu with rfl | rfl <;> rcases ht with rfl | rfl <;> rcases hc with rfl | rfl <;> rfl
  | @signed c sign rest a b hsign hclock ha hb =>
    exact .inr ⟨c, sign, rest, a, b, rfl, hsign, hclock, ha, hb, rfl⟩

theorem not_isWord_of_isSign {c : Char} {sign : Int} (h : IsSign c sign) (rest : List Char) :
    ¬IsWord (c :: rest) := by
  cases h <;> simp [IsWord]

section
variable {s : List Char}

theorem read_of_isWord (h : IsWord (trim s)) : read s = .done ⟨0, by decide⟩ :=
  if_pos h

theorem read_of_not_isWord (h : ¬IsWord (trim s)) : read s = (do
    let sign ← ofOption ((toUtf8 (trim s)).head? >>= sign?)
    let n ← readClock sign (← after 1 (trim s))
    ofOption (east? n)) :=
  if_neg h

theorem read_of_isSign {c : Char} {sign : Int} {rest : List Char} (htrim : trim s = c :: rest)
    (hsign : IsSign c sign) : read s = (readClock sign rest >>= fun n => ofOption (east? n)) := by
  have hafter : after 1 (c :: rest) = .done rest :=
    after_succ (by cases hsign <;> decide) [] rest
  have hfirst : (toUtf8 (c :: rest)).head? >>= sign? = some sign := by
    rw [head?_toUtf8_cons]
    exact sign?_leadByte_iff.mpr hsign
  rw [read_of_not_isWord (htrim ▸ not_isWord_of_isSign hsign rest), htrim, hfirst, hafter]
  rfl

theorem read_of_neither (hword : ¬IsWord (trim s))
    (hsign : ∀ c sign rest, trim s = c :: rest → ¬IsSign c sign) : read s = .refused := by
  have hfirst : (toUtf8 (trim s)).head? >>= sign? = none := by
    cases htrim : trim s with
    | nil => rfl
    | cons c rest =>
      rw [head?_toUtf8_cons]
      exact Option.eq_none_iff_forall_ne_some.mpr fun sign h =>
        hsign c sign rest htrim (sign?_leadByte_iff.mp h)
  rw [read_of_not_isWord hword, hfirst]
  rfl

theorem read_cases (s : List Char) : IsWord (trim s) ∨
    (∃ c sign rest, trim s = c :: rest ∧ IsSign c sign) ∨ read s = .refused := by
  by_cases hword : IsWord (trim s)
  · exact .inl hword
  · by_cases hsign : ∃ c sign rest, trim s = c :: rest ∧ IsSign c sign
    · exact .inr (.inl hsign)
    · exact .inr (.inr (read_of_neither hword fun c sign rest htrim h =>
        hsign ⟨c, sign, rest, htrim, h⟩))

theorem read_ne_trapped (s : List Char) (t : Trap) : read s ≠ .trapped t := by
  obtain hword | ⟨c, sign, rest, htrim, hsign⟩ | hrefused := read_cases s
  · simp [read_of_isWord hword]
  · simp [read_of_isSign htrim hsign, bind_eq_trapped_iff, readClock_ne_trapped hsign.eq]
  · simp [hrefused]

/-- What is read is what the text spells. -/
theorem read_eq_done_iff {n : Int} :
    (∃ o, read s = .done o ∧ o.seconds = n) ↔ Spells (trim s) n := by
  constructor
  · rintro ⟨o, hread, rfl⟩
    obtain hword | ⟨c, sign, rest, htrim, hsign⟩ | hrefused := read_cases s
    · rw [read_of_isWord hword] at hread
      cases hread
      exact spells_of_isWord hword
    · rw [read_of_isSign htrim hsign, bind_eq_done_iff] at hread
      obtain ⟨n, hclock, heast⟩ := hread
      obtain ⟨a, b, hspelt, ha, hb, rfl⟩ := (readClock_eq_done_iff hsign.eq).mp hclock
      rw [ofOption_eq_done_iff, east?_eq_some_iff] at heast
      rw [htrim, heast]
      exact .signed hsign hspelt ha hb
    · rw [hrefused] at hread
      cases hread
  · intro hspells
    obtain ⟨hword, rfl⟩ | ⟨c, sign, rest, a, b, htrim, hsign, hclock, ha, hb, hn⟩ :=
      hspells.word_or_signed
    · exact ⟨_, read_of_isWord hword, rfl⟩
    · have hread := (readClock_eq_done_iff hsign.eq).mpr ⟨a, b, hclock, ha, hb, hn⟩
      have hbounded : -86400 < n ∧ n < 86400 := by
        rw [← hn]
        obtain rfl | rfl := hsign.eq <;> omega
      refine ⟨⟨n, hbounded⟩, ?_, rfl⟩
      rw [read_of_isSign htrim hsign, hread, done_bind, ofOption_eq_done_iff, east?_eq_some_iff]

theorem parse?_eq_some_iff {o : Offset} : parse? s = some o ↔ Spells (trim s) o.seconds := by
  rw [parse?, value?_eq_some_iff, ← read_eq_done_iff]
  constructor
  · exact fun h => ⟨o, h, rfl⟩
  · rintro ⟨o', hread, hseconds⟩
    obtain rfl : o' = o := by cases o; cases o'; cases hseconds; rfl
    exact hread

theorem parse?_eq_none_iff : parse? s = none ↔ ¬∃ n, Spells (trim s) n := by
  rw [Option.eq_none_iff_forall_ne_some]
  constructor
  · rintro h ⟨n, hn⟩
    obtain ⟨o, hread, -⟩ := read_eq_done_iff.mpr hn
    exact h o (value?_eq_some_iff.mpr hread)
  · exact fun h o ho => h ⟨o.seconds, parse?_eq_some_iff.mp ho⟩

end

/-- A zone is read exactly where the text without the blanks around it spells one, as the seconds
that it denotes, and no text is cut within a character or takes a number out of its range. Settings
describe a session in that zone, and fail exactly if their zone is not spelt so. -/
theorem read_exactly (s : String) :
    (∀ t, read s.toList ≠ .trapped t) ∧
    (∀ n, (∃ o, read s.toList = .done o ∧ o.seconds = n) ↔ Spells (trim s.toList) n) ∧
    ∀ version strict,
      (∀ o, SessionSettings.session ⟨version, s, strict⟩ = .ok ⟨version, o, strict⟩ ↔
        Spells (trim s.toList) o.seconds) ∧
      (SessionSettings.session ⟨version, s, strict⟩ = .error (.unknownZone s) ↔
        ¬∃ n, Spells (trim s.toList) n) := by
  refine ⟨read_ne_trapped _, fun n => read_eq_done_iff, fun version strict => ?_⟩
  simp only [← parse?_eq_some_iff, ← parse?_eq_none_iff, SessionSettings.session]
  cases parse? s.toList <;> simp

end ObjectTracking.Time.Offset
