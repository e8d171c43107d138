import ObjectTracking.Markup.Entity
import ObjectTracking.Markup.Token
import ObjectTracking.Proofs.Text.Digits
/-!
Documents in two parts that are cut into tokens each on its own. What comes later changes nothing of
a piece of markup that has ended, so that the whole has the tokens of its parts, except that a text at
the end of the first part goes on in a text at the beginning of the second.
-/
set_option autoImplicit false

namespace ObjectTracking.Markup
open Text

theorem tagLength?_append {quote : Option Char} {seen n : Nat} {cs : List Char}
    (h : tagLength? quote seen cs = some n) :
    seen ≤ n ∧ n < seen + cs.length ∧ ∀ more, tagLength? quote seen (cs ++ more) = some n := by
  induction cs generalizing quote seen with
  | nil => cases h
  | cons c cs ih =>
    have hlater : ∀ {quote'}, tagLength? quote' (seen + 1) cs = some n →
        seen ≤ n ∧ n < seen + (c :: cs).length ∧
          ∀ more, tagLength? quote' (seen + 1) (cs ++ more) = some n := by
      intro quote' hlength
      obtain ⟨hle, hlt, hmore⟩ := ih hlength
      exact ⟨by omega, by rw [List.length_cons]; omega, hmore⟩
    simp only [List.cons_append, tagLength?] at h ⊢
    cases quote with
    | some q => exact hlater h
    | none =>
      dsimp only at h ⊢
      split at h
      · rename_i hend
        cases h
        exact ⟨Nat.le_refl _, by simp, fun more => if_pos hend⟩
      · rename_i hend
        obtain ⟨hle, hlt, hmore⟩ := hlater h
        exact ⟨hle, hlt, fun more => (if_neg hend).trans (hmore more)⟩

theorem isPrefixOf_append {mark cs : List Char} (h : mark.length ≤ cs.length) (more : List Char) :
    mark.isPrefixOf (cs ++ more) = mark.isPrefixOf cs := by
  rw [Bool.eq_iff_iff, List.isPrefixOf_iff_prefix, List.isPrefixOf_iff_prefix]
  exact ⟨fun hmark => List.prefix_of_prefix_length_le hmark (List.prefix_append _ _) h,
    fun hmark => hmark.trans (List.prefix_append _ _)⟩

theorem lengthBefore?_append {mark : List Char} {seen n : Nat} {cs : List Char}
    (h : lengthBefore? mark seen cs = some n) :
    seen ≤ n ∧ n + mark.length ≤ seen + cs.length ∧
      ∀ more, lengthBefore? mark seen (cs ++ more) = some n := by
  induction cs generalizing seen with
  | nil =>
    simp only [lengthBefore?] at h
    split at h
    · rename_i hmark
      cases h
      obtain rfl := List.isEmpty_iff.mp hmark
      refine ⟨Nat.le_refl _, Nat.le_refl _, ?_⟩
      intro more
      cases more <;> simp [lengthBefore?]
    · cases h
  | cons c cs ih =>
    simp only [List.cons_append, lengthBefore?] at h ⊢
    split at h
    · rename_i hmark
      cases h
      have hlength := (List.isPrefixOf_iff_prefix.mp hmark).length_le
      refine ⟨Nat.le_refl _, Nat.add_le_add_left hlength _, fun more => if_pos ?_⟩
      exact (isPrefixOf_append hlength more).trans hmark
    · rename_i hmark
      obtain ⟨hle, hlength, hmore⟩ := ih h
      have hshort : mark.length ≤ (c :: cs).length := by
        rw [List.length_cons]
        omega
      refine ⟨by omega, by rw [List.length_cons]; omega, fun more => ?_⟩
      rw [← List.cons_append, isPrefixOf_append hshort, if_neg hmark]
      exact hmore more

theorem doctypeLength?_append {depth seen n : Nat} {cs : List Char}
    (h : doctypeLength? depth seen cs = some n) :
    seen ≤ n ∧ n < seen + cs.length ∧ ∀ more, doctypeLength? depth seen (cs ++ more) = some n := by
  induction cs generalizing depth seen with
  | nil => cases h
  | cons c cs ih =>
    have hlater : ∀ {depth'}, doctypeLength? depth' (seen + 1) cs = some n →
        seen ≤ n ∧ n < seen + (c :: cs).length ∧
          ∀ more, doctypeLength? depth' (seen + 1) (cs ++ more) = some n := by
      intro depth' hlength
      obtain ⟨hle, hlt, hmore⟩ := ih hlength
      exact ⟨by omega, by rw [List.length_cons]; omega, hmore⟩
    simp only [List.cons_append, doctypeLength?] at h ⊢
    by_cases hend : (c == '>') = true
    · simp only [hend, if_true] at h ⊢
      by_cases hdepth : (depth == 0) = true
      · simp only [hdepth, if_true] at h ⊢
        cases h
        exact ⟨Nat.le_refl _, by simp, fun _ => rfl⟩
      · simp only [hdepth] at h ⊢
        exact hlater h
    · simp only [hend] at h ⊢
      exact hlater h

section Markup

theorem markup?_doctype {body : List Char}
    (h : ((body.take 7).map Char.toLower == "doctype".toList) = true) :
    markup? ('!' :: body) = (doctypeLength? 0 0 (body.drop 7)).bind fun n =>
      if ((body.drop 7).take n).all isSpace then none else some (none, n + 9) := by
  have hfirst : ∀ c cs, body = c :: cs → c.toLower = 'd' := by
    rintro c cs rfl
    rw [beq_iff_eq] at h
    exact (List.cons.inj h).1
  have hcomment : ∀ cs, body = '-' :: '-' :: cs → False := fun cs hbody =>
    absurd (hfirst _ _ hbody) (by decide)
  have hsection : ∀ cs, body = '[' :: 'C' :: 'D' :: 'A' :: 'T' :: 'A' :: '[' :: cs → False :=
    fun cs hbody => absurd (hfirst _ _ hbody) (by decide)
  rw [markup?.eq_4 body hcomment hsection, if_pos h]

theorem markup?_instruction {c : Char} {cs : List Char} (h : c ≠ '>') :
    markup? ('?' :: c :: cs) =
      (lengthBefore? ['?', '>'] 0 (c :: cs)).map fun n => (none, n + 3) :=
  markup?.eq_6 (c :: cs) fun _ hbody => h (List.cons.inj hbody).1

theorem markup?_start {c : Char} {cs : List Char} (hbang : c ≠ '!') (hquestion : c ≠ '?')
    (hslash : c ≠ '/') :
    markup? (c :: cs) = (tagLength? none 0 (c :: cs)).map fun n =>
      let content := (c :: cs).take n
      if content.getLast? == some '/' then (some (.opening content.dropLast true), n + 1)
      else (some (.opening content false), n + 1) := by
  apply markup?.eq_8
  · intro h
    cases h
  all_goals
    intro _ h
    first
      | exact hbang (List.cons.inj h).1
      | exact hquestion (List.cons.inj h).1
      | exact hslash (List.cons.inj h).1

/-- What is made of the characters that a scan passes does not depend on what comes after them. -/
theorem map_scan_append {scan : List Char → Option Nat} {body : List Char} {n : Nat}
    (hn : n ≤ body.length) (hscan : ∀ more, scan (body ++ more) = some n)
    (make : List Char → Nat → Option Token × Nat) (more : List Char) :
    (scan (body ++ more)).map (fun n => make ((body ++ more).take n) n) =
      some (make (body.take n) n) := by
  rw [hscan, Option.map_some, List.take_append_of_le_length hn]

theorem markup?_doctype_append {body : List Char} {t : Option Token} {n : Nat}
    (hword : ((body.take 7).map Char.toLower == "doctype".toList) = true)
    (h : markup? ('!' :: body) = some (t, n)) :
    n ≤ body.length + 1 ∧ ∀ more, markup? ('!' :: (body ++ more)) = some (t, n) := by
  rw [markup?_doctype hword] at h
  obtain ⟨m, hm, hspace⟩ := Option.bind_eq_some_iff.mp h
  obtain ⟨-, hlength, hmore⟩ := doctypeLength?_append hm
  rw [List.length_drop] at hlength
  split at hspace
  · cases hspace
  · rename_i hfilled
    cases hspace
    refine ⟨by omega, fun more => ?_⟩
    have htake : (body ++ more).take 7 = body.take 7 := List.take_append_of_le_length (by omega)
    have hdrop : (body ++ more).drop 7 = body.drop 7 ++ more :=
      List.drop_append_of_le_length (by omega)
    have hinner : (body.drop 7 ++ more).take m = (body.drop 7).take m :=
      List.take_append_of_le_length (by rw [List.length_drop]; omega)
    rw [markup?_doctype (by rwa [htake]), hdrop, hmore, Option.bind_some, hinner, if_neg hfilled]

/-- A piece of markup ends before what comes after it. -/
theorem markup?_append {cs : List Char} {t : Option Token} {n : Nat}
    (h : markup? cs = some (t, n)) :
    n ≤ cs.length ∧ ∀ more, markup? (cs ++ more) = some (t, n) := by
  have hmarkup := h
  unfold markup? at h
  split at h
  · cases h
  · -- a comment
    rename_i body
    obtain ⟨m, hm, heq⟩ := Option.map_eq_some_iff.mp h
    cases heq
    obtain ⟨-, hlength, hmore⟩ := lengthBefore?_append hm
    simp only [List.length_cons, List.length_nil] at hlength ⊢
    exact ⟨by omega, map_scan_append (by omega) hmore fun _ n => (none, n + 6)⟩
  · -- a section of character data
    rename_i body
    obtain ⟨m, hm, heq⟩ := Option.map_eq_some_iff.mp h
    cases heq
    obtain ⟨-, hlength, hmore⟩ := lengthBefore?_append hm
    simp only [List.length_cons, List.length_nil] at hlength ⊢
    exact ⟨by omega,
      map_scan_append (by omega) hmore fun data n => (some (.verbatim data), n + 11)⟩
  · -- a document type
    rename_i body _ _
    split at h
    · rename_i hword
      exact markup?_doctype_append hword hmarkup
    · cases h
  · cases h
  · -- an instruction
    rename_i body hstart
    obtain ⟨m, hm, heq⟩ := Option.map_eq_some_iff.mp h
    cases heq
    obtain ⟨-, hlength, hmore⟩ := lengthBefore?_append hm
    cases body with
    | nil => cases hm
    | cons c body =>
      have hc : c ≠ '>' := fun hc => hstart body (by rw [hc])
      simp only [List.length_cons, List.length_nil] at hlength ⊢
      refine ⟨by omega, fun more => ?_⟩
      rw [List.cons_append, List.cons_append, markup?_instruction hc]
      exact map_scan_append (by rw [List.length_cons]; omega) hmore (fun _ n => (none, n + 3)) more
  · -- an end tag
    rename_i body
    obtain ⟨m, hm, heq⟩ := Option.map_eq_some_iff.mp h
    cases heq
    obtain ⟨-, hlength, hmore⟩ := tagLength?_append hm
    rw [List.length_cons]
    exact ⟨by omega, map_scan_append (by omega) hmore
      fun content n => (some (.closing (closingName content)), n + 2)⟩
  · -- a start tag
    rename_i hnil _ _ hbang _ hquestion hslash
    obtain ⟨m, hm, heq⟩ := Option.map_eq_some_iff.mp h
    obtain ⟨-, hlength, hmore⟩ := tagLength?_append hm
    cases cs with
    | nil => cases hm
    | cons c cs =>
      refine ⟨?_, fun more => ?_⟩
      · dsimp only at heq
        split at heq <;> cases heq <;> omega
      · rw [List.cons_append, markup?_start (fun hc => hbang cs (by rw [hc]))
          (fun hc => hquestion cs (by rw [hc])) (fun hc => hslash cs (by rw [hc])), ← heq]
        exact map_scan_append (by omega) hmore (fun content n =>
          if content.getLast? == some '/' then (some (.opening content.dropLast true), n + 1)
          else (some (.opening content false), n + 1)) more

end Markup

theorem unescape?_entity {name rest : List Char} (hname : name.all (!endsEntity ·) = true) :
    unescape? ('&' :: (name ++ ';' :: rest)) =
      (entity? name).bind fun e => (e :: ·) <$> unescape? rest := by
  have hends : Ends (!endsEntity ·) (';' :: rest) := ends_cons (by decide) rest
  have hdrop : (name ++ ';' :: rest).drop (name.length + 1) = rest := by simp
  rw [unescape?, if_pos rfl, takeWhile_append_of_ends hname hends]
  dsimp only
  rw [List.drop_left, List.take_left, hdrop]
  rfl

theorem unescape?_of_not_mem {cs : List Char} (h : '&' ∉ cs) : unescape? cs = some cs := by
  induction cs with
  | nil => rw [unescape?]
  | cons c cs ih =>
    simp only [List.mem_cons, not_or] at h
    rw [unescape?, if_neg (Ne.symm h.1), ih h.2]
    rfl

/-- Two texts without a loose ampersand stand for what they stand for each on its own. -/
theorem unescape?_append {cs cs' s s' : List Char} (h : unescape? cs = some s)
    (h' : unescape? cs' = some s') : unescape? (cs ++ cs') = some (s ++ s') := by
  induction cs using unescape?.induct generalizing s with
  | case1 =>
    rw [unescape?] at h
    cases h
    exact h'
  | case2 cs n hend =>
    rename_i ih
    have hn : n = (cs.takeWhile (!endsEntity ·)).length := rfl
    clear_value n
    have hname : (cs.takeWhile (!endsEntity ·)).all (!endsEntity ·) = true := List.all_takeWhile
    have hcut := List.takeWhile_append_dropWhile (p := (!endsEntity ·)) (l := cs)
    generalize cs.takeWhile (!endsEntity ·) = name at hn hname hcut
    generalize cs.dropWhile (!endsEntity ·) = tail at hcut
    subst hn hcut
    rw [List.drop_left] at hend
    obtain ⟨rest, rfl⟩ := List.head?_eq_some_iff.mp hend
    rw [unescape?_entity hname] at h
    obtain ⟨e, he, hread⟩ := Option.bind_eq_some_iff.mp h
    rw [Option.map_eq_map, Option.map_eq_some_iff] at hread
    obtain ⟨s, hs, rfl⟩ := hread
    have hdrop : (name ++ ';' :: rest).drop (name.length + 1) = rest := by simp
    rw [hdrop] at ih
    rw [List.cons_append, List.append_assoc, List.cons_append, unescape?_entity hname, he,
      Option.bind_some, ih hs]
    rfl
  | case3 cs n =>
    rename_i hend
    rw [unescape?, if_pos rfl] at h
    dsimp only at h
    rw [if_neg hend] at h
    cases h
  | case4 c cs hc ih =>
    rw [unescape?, if_neg hc, Option.map_eq_map, Option.map_eq_some_iff] at h
    obtain ⟨s, hs, rfl⟩ := h
    rw [List.cons_append, unescape?, if_neg hc, ih hs]
    rfl

/-- The tokens of a document in two parts. -/
inductive Joins : List Token → List Token → List Token → Prop where
  | apart (ts ts' : List Token) : Joins ts ts' (ts ++ ts')
  /-- A text goes over from one part to the other. -/
  | within (front : List Token) (raw raw' : List Char) (back : List Token) :
    Joins (front ++ [.text raw]) (.text raw' :: back) (front ++ .text (raw ++ raw') :: back)

theorem Joins.prepend {ts ts' us : List Token} (h : Joins ts ts' us) (front : List Token) :
    Joins (front ++ ts) ts' (front ++ us) := by
  cases h with
  | apart =>
    rw [← List.append_assoc]
    exact .apart _ _
  | within middle raw raw' back =>
    rw [← List.append_assoc, ← List.append_assoc]
    exact .within _ raw raw' back

theorem tokens?_markup {cs : List Char} {t : Option Token} {n : Nat}
    (h : markup? cs = some (t, n)) :
    tokens? ('<' :: cs) = (t.toList ++ ·) <$> tokens? (cs.drop n) := by
  rw [tokens?]
  simp [h]

theorem tokens?_text {cs rest : List Char} (hne : cs ≠ []) (hcs : '<' ∉ cs)
    (hrest : Ends (· != '<') rest) :
    tokens? (cs ++ rest) = (.text cs :: ·) <$> tokens? rest := by
  cases cs with
  | nil => exact absurd rfl hne
  | cons c cs =>
    simp only [List.mem_cons, not_or] at hcs
    have hall : cs.all (· != '<') = true := by
      rw [List.all_eq_true]
      intro d hd
      rw [bne_iff_ne]
      rintro rfl
      exact hcs.2 hd
    rw [List.cons_append, tokens?, if_neg (Ne.symm hcs.1), takeWhile_append_of_ends hall hrest,
      dropWhile_append_of_ends hall hrest]

/-- A document goes on with text up to some markup or its end. -/
theorem text_before_markup (cs : List Char) :
    '<' ∉ cs.takeWhile (· != '<') ∧ Ends (· != '<') (cs.dropWhile (· != '<')) := by
  constructor
  · intro h
    simpa using List.all_eq_true.mp List.all_takeWhile _ h
  · intro c rest heq
    have hhead := List.head?_dropWhile_not (· != '<') cs
    rw [heq] at hhead
    simpa using hhead

theorem tokens?_text_append {cs cs' : List Char} {ts' : List Token} (hne : cs ≠ [])
    (hcs : '<' ∉ cs) (h' : tokens? cs' = some ts') :
    ∃ us, tokens? (cs ++ cs') = some us ∧ Joins [.text cs] ts' us := by
  cases cs' with
  | nil => exact ⟨.text cs :: ts', by rw [tokens?_text hne hcs (ends_nil _), h']; rfl, .apart _ _⟩
  | cons d cs' =>
    by_cases hd : d = '<'
    · have hends : Ends (· != '<') (d :: cs') := ends_cons (by simp [hd]) cs'
      exact ⟨.text cs :: ts', by rw [tokens?_text hne hcs hends, h']; rfl, .apart _ _⟩
    · rw [tokens?, if_neg hd, Option.map_eq_map, Option.map_eq_some_iff] at h'
      obtain ⟨back, hback, rfl⟩ := h'
      obtain ⟨hrun, hends⟩ := text_before_markup cs'
      have hcut := List.takeWhile_append_dropWhile (p := (· != '<')) (l := cs')
      have hall : '<' ∉ cs ++ d :: cs'.takeWhile (· != '<') := by
        simp [hcs, Ne.symm hd, hrun]
      have htokens := tokens?_text (by simp [hne]) hall hends
      rw [List.append_assoc, List.cons_append, hcut, hback] at htokens
      exact ⟨_, htokens, .within [] _ _ back⟩

theorem tokens?_append {cs cs' : List Char} {ts ts' : List Token} (h : tokens? cs = some ts)
    (h' : tokens? cs' = some ts') : ∃ us, tokens? (cs ++ cs') = some us ∧ Joins ts ts' us := by
  induction cs using tokens?.induct generalizing ts with
  | case1 =>
    rw [tokens?] at h
    cases h
    exact ⟨ts', h', .apart [] ts'⟩
  | case2 cs hmarkup =>
    rw [tokens?] at h
    simp [hmarkup] at h
  | case3 cs t n hmarkup ih =>
    rw [tokens?_markup hmarkup, Option.map_eq_map, Option.map_eq_some_iff] at h
    obtain ⟨ts, hts, rfl⟩ := h
    obtain ⟨hlength, hmore⟩ := markup?_append hmarkup
    obtain ⟨us, hus, hjoins⟩ := ih hts
    refine ⟨t.toList ++ us, ?_, hjoins.prepend _⟩
    rw [List.cons_append, tokens?_markup (hmore cs'), List.drop_append_of_le_length hlength, hus]
    rfl
  | case4 c cs hc ih =>
    rw [tokens?, if_neg hc, Option.map_eq_map, Option.map_eq_some_iff] at h
    obtain ⟨ts, hts, rfl⟩ := h
    obtain ⟨hrun, hends⟩ := text_before_markup cs
    have hcut := List.takeWhile_append_dropWhile (p := (· != '<')) (l := cs)
    generalize cs.takeWhile (· != '<') = run at hrun hcut ⊢
    generalize cs.dropWhile (· != '<') = rest at hts hends hcut ih
    subst hcut
    have hrun : '<' ∉ c :: run := by simp [Ne.symm hc, hrun]
    cases rest with
    | nil =>
      rw [tokens?] at hts
      obtain rfl := Option.some.inj hts
      rw [List.append_nil]
      exact tokens?_text_append (List.cons_ne_nil c run) hrun h'
    | cons d rest =>
      obtain ⟨us, hus, hjoins⟩ := ih hts
      have hends : Ends (· != '<') (d :: rest ++ cs') :=
        ends_cons (p := (· != '<')) (hends d rest rfl) _
      refine ⟨.text (c :: run) :: us, ?_, hjoins.prepend [_]⟩
      rw [← List.cons_append, List.append_assoc,
        tokens?_text (List.cons_ne_nil c run) hrun hends, hus]
      rfl

end ObjectTracking.Markup
