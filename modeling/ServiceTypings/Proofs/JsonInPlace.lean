import Mathlib.Data.List.Basic
import Mathlib.Data.List.TakeWhile
import ServiceTypings.Json.Reader

/-! A JSON text that is part of another one. A reader that takes it in with arrays and objects still open
around it goes through the same steps as on the text alone, and they stay as they are (`run_inside`);
only a number could go on into what follows, and no comma and no bracket goes on with a number. So the
text has the same value in its place as by itself. -/

namespace ServiceTypings.Json

/-- What follows does not go on with a number. -/
def Ends (rest : List Char) : Prop :=
  ∀ c ∈ rest.head?, c.isDigit = false ∧ c ≠ '.' ∧ c ≠ 'e' ∧ c ≠ 'E'

theorem ends_cons {c : Char} (h : c.isDigit = false ∧ c ≠ '.' ∧ c ≠ 'e' ∧ c ≠ 'E') (cs : List Char) :
    Ends (c :: cs) := by
  intro d hd
  rwa [← Option.some.inj hd]

section

variable {cs left rest : List Char}

theorem digits_append (h : Ends rest) (cs : List Char) :
    digits (cs ++ rest) = ((digits cs).1, (digits cs).2 ++ rest) := by
  induction cs with
  | nil =>
    cases rest with
    | nil => rfl
    | cons c rest =>
      have hc : c.isDigit = false := (h c rfl).1
      simp [digits, hc]
  | cons c cs ih =>
    by_cases hc : c.isDigit
    · simpa [digits, hc] using ih
    · simp [digits, hc]

theorem whole?_cons_of_ne {c : Char} (hc : c ≠ '0') (cs : List Char) :
    whole? (c :: cs) = if (digits (c :: cs)).1.isEmpty then none else some (digits (c :: cs)) := by
  unfold whole?
  split
  next hzero => exact absurd (List.cons.inj hzero).1 hc
  next => rfl

theorem whole?_append (h : Ends rest) {ds : List Nat} (hcs : whole? cs = some (ds, left)) :
    whole? (cs ++ rest) = some (ds, left ++ rest) := by
  cases cs with
  | nil => simp [whole?, digits] at hcs
  | cons c cs =>
    by_cases hc : c = '0'
    · subst hc
      simp only [whole?, Option.some_inj, Prod.mk.injEq] at hcs
      simp [whole?, hcs]
    · rw [whole?_cons_of_ne hc, Option.ite_none_left_eq_some] at hcs
      have hdigits := digits_append h (c :: cs)
      rw [Option.some.inj hcs.2] at hdigits hcs
      rw [List.cons_append, whole?_cons_of_ne hc, ← List.cons_append, hdigits, if_neg hcs.1]

theorem fraction?_append (h : Ends rest) {ds : List Nat} (hcs : fraction? cs = some (ds, left)) :
    fraction? (cs ++ rest) = some (ds, left ++ rest) := by
  have habsent : ∀ cs : List Char, cs.head? ≠ some '.' → fraction? cs = some ([], cs) := by
    intro cs hhead
    unfold fraction?
    split
    · exact absurd rfl hhead
    · rfl
  by_cases hhead : cs.head? = some '.'
  · obtain ⟨cs, rfl⟩ := List.head?_eq_some_iff.1 hhead
    rw [fraction?, Option.ite_none_left_eq_some] at hcs
    have hdigits := digits_append h cs
    rw [Option.some.inj hcs.2] at hdigits hcs
    rw [List.cons_append, fraction?, hdigits, if_neg hcs.1]
  · have hpoint : (cs ++ rest).head? ≠ some '.' := by
      cases cs with
      | nil => exact fun hdot => (h '.' hdot).2.1 rfl
      | cons c cs => exact hhead
    rw [habsent cs hhead] at hcs
    obtain ⟨rfl, rfl⟩ := Prod.mk.inj (Option.some.inj hcs)
    exact habsent _ hpoint

theorem unsignedExponent?_append (h : Ends rest) {n : Nat} (hcs : unsignedExponent? cs = some (n, left)) :
    unsignedExponent? (cs ++ rest) = some (n, left ++ rest) := by
  rw [unsignedExponent?, Option.ite_none_left_eq_some, Option.some_inj, Prod.mk.injEq] at hcs
  obtain ⟨hdigits, rfl, rfl⟩ := hcs
  rw [unsignedExponent?, digits_append h cs, if_neg hdigits]

theorem signedExponent?_eq_of_head (hminus : cs.head? ≠ some '-') (hplus : cs.head? ≠ some '+') :
    signedExponent? cs = (unsignedExponent? cs).map fun p => ((p.1 : Int), p.2) := by
  unfold signedExponent?
  split
  · exact absurd rfl hminus
  · exact absurd rfl hplus
  · rfl

theorem signedExponent?_append (h : Ends rest) {e : Int} (hcs : signedExponent? cs = some (e, left)) :
    signedExponent? (cs ++ rest) = some (e, left ++ rest) := by
  have hmap : ∀ (f : Nat → Int) {cs : List Char},
      (unsignedExponent? cs).map (fun p => (f p.1, p.2)) = some (e, left) →
      (unsignedExponent? (cs ++ rest)).map (fun p => (f p.1, p.2)) = some (e, left ++ rest) := by
    intro f cs hmap
    obtain ⟨⟨n, left'⟩, hn, heq⟩ := Option.map_eq_some_iff.1 hmap
    obtain ⟨rfl, rfl⟩ := Prod.mk.inj heq
    rw [unsignedExponent?_append h hn, Option.map_some]
  cases cs with
  | nil => simp [signedExponent?, unsignedExponent?, digits] at hcs
  | cons c cs =>
    by_cases hminus : c = '-'
    · subst hminus
      exact hmap (fun n => -(n : Int)) hcs
    · by_cases hplus : c = '+'
      · subst hplus
        exact hmap (fun n => (n : Int)) hcs
      · have hhead : ∀ {d : Char} {cs : List Char}, c ≠ d → (c :: cs).head? ≠ some d :=
          fun hne heq => hne (Option.some.inj heq)
        rw [signedExponent?_eq_of_head (hhead hminus) (hhead hplus)] at hcs
        rw [List.cons_append, signedExponent?_eq_of_head (hhead hminus) (hhead hplus), ← List.cons_append]
        exact hmap (fun n => (n : Int)) hcs

theorem exponent?_eq_of_head (hlower : cs.head? ≠ some 'e') (hupper : cs.head? ≠ some 'E') :
    exponent? cs = some (0, cs) := by
  unfold exponent?
  split
  · exact absurd rfl hlower
  · exact absurd rfl hupper
  · rfl

theorem exponent?_append (h : Ends rest) {e : Int} (hcs : exponent? cs = some (e, left)) :
    exponent? (cs ++ rest) = some (e, left ++ rest) := by
  by_cases hlower : cs.head? = some 'e'
  · obtain ⟨cs, rfl⟩ := List.head?_eq_some_iff.1 hlower
    exact signedExponent?_append h hcs
  · by_cases hupper : cs.head? = some 'E'
    · obtain ⟨cs, rfl⟩ := List.head?_eq_some_iff.1 hupper
      exact signedExponent?_append h hcs
    · rw [exponent?_eq_of_head hlower hupper, Option.some_inj, Prod.mk.injEq] at hcs
      obtain ⟨rfl, rfl⟩ := hcs
      cases cs with
      | nil =>
        exact exponent?_eq_of_head (fun he => (h 'e' he).2.2.1 rfl) fun hE => (h 'E' hE).2.2.2 rfl
      | cons c cs => exact exponent?_eq_of_head hlower hupper

theorem number?_append (h : Ends rest) {negative : Bool} {n : Number}
    (hcs : number? negative cs = some (n, left)) :
    number? negative (cs ++ rest) = some (n, left ++ rest) := by
  simp only [number?, Option.bind_eq_bind, Option.bind_eq_some_iff, Option.pure_def, Option.some_inj] at hcs ⊢
  obtain ⟨⟨whole, afterWhole⟩, hwhole, ⟨fraction, afterFraction⟩, hfraction, ⟨exponent, afterExponent⟩,
    hexponent, hn⟩ := hcs
  obtain ⟨rfl, rfl⟩ := Prod.mk.inj hn
  exact ⟨_, whole?_append h hwhole, _, fraction?_append h hfraction, _, exponent?_append h hexponent, rfl⟩

/-- Behind the closing quote nothing is looked at. -/
theorem quoted?_append {glyphs : List Glyph} (hcs : quoted? cs = some (glyphs, left)) :
    quoted? (cs ++ rest) = some (glyphs, left ++ rest) := by
  fun_induction quoted? cs generalizing glyphs with
  | case1 => cases hcs
  | case2 cs =>
    obtain ⟨rfl, rfl⟩ := Prod.mk.inj (Option.some.inj hcs)
    rfl
  | case3 a b c d cs n glyphs' left' hcs' hhex ih =>
    obtain ⟨rfl, rfl⟩ := Prod.mk.inj (Option.some.inj hcs)
    simp only [List.cons_append, quoted?, hhex, ih hcs']
  | case4 | case6 | case7 => cases hcs
  | case5 c cs hunit e glyphs' left' hcs' hescaped ih =>
    obtain ⟨rfl, rfl⟩ := Prod.mk.inj (Option.some.inj hcs)
    have hletter : c ≠ 'u' := by
      rintro rfl
      simp [escaped?] at hescaped
    simp only [List.cons_append]
    rw [quoted?, ih hcs', hescaped]
    exact fun _ _ _ _ _ hu => absurd hu hletter
  | case8 c cs hquote hunit hescaped hplain ih =>
    obtain ⟨⟨glyphs', left'⟩, hcs', heq⟩ := Option.map_eq_some_iff.1 hcs
    obtain ⟨rfl, rfl⟩ := Prod.mk.inj heq
    have hslash : c ≠ '\\' := fun hc => hplain (by simp [hc])
    rw [List.cons_append, quoted?, if_neg hplain, ih hcs', Option.map_some]
    · exact hquote
    · exact fun _ _ _ _ _ hc => absurd hc hslash
    · exact fun _ _ hc => absurd hc hslash

theorem exists_digit_of_number? {negative : Bool} {n : Number} (hcs : number? negative cs = some (n, left)) :
    ∃ c cs', cs = c :: cs' ∧ c.isDigit := by
  simp only [number?, Option.bind_eq_bind, Option.bind_eq_some_iff] at hcs
  obtain ⟨_, hwhole, _⟩ := hcs
  unfold whole? at hwhole
  split at hwhole
  next cs => exact ⟨'0', cs, rfl, by decide⟩
  next =>
    have hdigits := (Option.ite_none_left_eq_some.1 hwhole).1
    cases cs with
    | nil => simp [digits] at hdigits
    | cons c cs =>
      refine ⟨c, cs, rfl, ?_⟩
      by_contra hc
      simp [digits, hc] at hdigits

theorem Token.next?_of_isDigit {c : Char} (hc : c.isDigit) (cs : List Char) :
    next? (c :: cs) = (number? false (c :: cs)).map fun p => (number p.1, p.2) := by
  unfold next?
  split
  case h_12 => rfl
  all_goals
    next heq =>
      obtain ⟨rfl, -⟩ := List.cons.inj heq
      exact absurd hc (by decide)

theorem next?_append (h : Ends rest) {t : Token} (hcs : Token.next? cs = some (t, left)) :
    Token.next? (cs ++ rest) = some (t, left ++ rest) := by
  unfold Token.next? at hcs
  split at hcs
  case h_10 =>
    obtain ⟨⟨glyphs, left'⟩, hquoted, heq⟩ := Option.map_eq_some_iff.1 hcs
    obtain ⟨rfl, rfl⟩ := Prod.mk.inj heq
    simp only [List.cons_append, Token.next?, quoted?_append hquoted, Option.map_some]
  case h_11 =>
    obtain ⟨⟨n, left'⟩, hnumber, heq⟩ := Option.map_eq_some_iff.1 hcs
    obtain ⟨rfl, rfl⟩ := Prod.mk.inj heq
    simp only [List.cons_append, Token.next?, number?_append h hnumber, Option.map_some]
  case h_12 =>
    obtain ⟨⟨n, left'⟩, hnumber, heq⟩ := Option.map_eq_some_iff.1 hcs
    obtain ⟨rfl, rfl⟩ := Prod.mk.inj heq
    obtain ⟨c, cs, rfl, hc⟩ := exists_digit_of_number? hnumber
    rw [List.cons_append, Token.next?_of_isDigit hc, ← List.cons_append, number?_append h hnumber,
      Option.map_some]
  all_goals
    obtain ⟨rfl, rfl⟩ := Prod.mk.inj (Option.some.inj hcs)
    rfl

end

namespace Reader

/-- The reader with more frames around those that it holds. -/
def inside (around : List Frame) : Reader → Option Reader
  | reading stack awaiting => some (reading (stack ++ around) awaiting)
  | finished v => accept v around

variable {around stack : List Frame} {r r' inner inner' : Reader} {v : Json}

theorem accept_append (h : accept v stack = some r') :
    accept v (stack ++ around) = inside around r' := by
  unfold accept at h
  split at h
  · cases h
    rfl
  · cases h
    rfl
  · cases h
    rfl
  · cases h

theorem begin_append {t : Token} (h : begin stack t = some r') :
    begin (stack ++ around) t = inside around r' := by
  cases t with
  | null | bool b | number n | string glyphs => exact accept_append h
  | openArray | openObject =>
    cases h
    rfl
  | closeArray | closeObject | comma | colon => cases h

theorem closeArray_append (h : closeArray stack = some r') :
    closeArray (stack ++ around) = inside around r' := by
  unfold closeArray at h
  split at h
  · exact accept_append h
  · cases h

theorem closeObject_append (h : closeObject stack = some r') :
    closeObject (stack ++ around) = inside around r' := by
  unfold closeObject at h
  split at h
  · exact accept_append h
  · cases h

theorem takeKey_append {t : Token} (h : takeKey stack t = some r') :
    takeKey (stack ++ around) t = inside around r' := by
  unfold takeKey at h
  split at h
  · cases h
    rfl
  · cases h

theorem takeComma_append (h : takeComma stack = some r') :
    takeComma (stack ++ around) = inside around r' := by
  unfold takeComma at h
  split at h
  · cases h
    rfl
  · cases h
    rfl
  · cases h

theorem step_firstItem {t : Token} (ht : t ≠ .closeArray) :
    (reading stack .firstItem).step t = begin stack t := by
  cases t <;> first | rfl | exact absurd rfl ht

theorem step_firstKey {t : Token} (ht : t ≠ .closeObject) :
    (reading stack .firstKey).step t = takeKey stack t := by
  cases t <;> first | rfl | exact absurd rfl ht

/-- A step never looks at the frames further out. -/
theorem step_inside {t : Token} (h : r.step t = some r') (hinner : inside around r = some inner) :
    inner.step t = inside around r' := by
  cases r with
  | finished v => exact absurd h (by simp [step])
  | reading stack awaiting =>
    obtain rfl := Option.some.inj hinner
    cases awaiting with
    | value => exact begin_append h
    | key => exact takeKey_append h
    | firstItem =>
      by_cases ht : t = .closeArray
      · subst ht
        exact closeArray_append h
      · rw [step_firstItem ht] at h ⊢
        exact begin_append h
    | firstKey =>
      by_cases ht : t = .closeObject
      · subst ht
        exact closeObject_append h
      · rw [step_firstKey ht] at h ⊢
        exact takeKey_append h
    | colon =>
      cases t with
      | colon =>
        cases h
        rfl
      | _ => cases h
    | more =>
      cases t with
      | comma => exact takeComma_append h
      | closeArray => exact closeArray_append h
      | closeObject => exact closeObject_append h
      | _ => cases h

theorem run_nil (n : Nat) (r : Reader) : run n r [] = some r := by
  cases n <;> rfl

theorem run_space {c : Char} (hc : isSpace c) (n : Nat) (r : Reader) (cs : List Char) :
    run (n + 1) r (c :: cs) = run n r cs := by
  rw [run, if_pos hc]

theorem run_token {c : Char} {cs left : List Char} {t : Token} (hc : ¬isSpace c)
    (hnext : Token.next? (c :: cs) = some (t, left)) (n : Nat) (r : Reader) :
    run (n + 1) r (c :: cs) = (r.step t).bind fun r => run n r left := by
  rw [run, if_neg hc, hnext]
  dsimp only
  cases r.step t <;> rfl

/-- What can be run on begins with space or with a token that the reader takes. -/
theorem exists_token_of_run {n : Nat} {c : Char} {cs : List Char} (hc : ¬isSpace c)
    (h : run (n + 1) r (c :: cs) = some r') :
    ∃ t left r₁, Token.next? (c :: cs) = some (t, left) ∧ r.step t = some r₁ ∧ run n r₁ left = some r' := by
  cases hnext : Token.next? (c :: cs) with
  | none =>
    rw [run, if_neg hc, hnext] at h
    cases h
  | some p =>
    obtain ⟨t, left⟩ := p
    rw [run_token hc hnext, Option.bind_eq_some_iff] at h
    obtain ⟨r₁, hstep, hrun⟩ := h
    exact ⟨t, left, r₁, rfl, hstep, hrun⟩

theorem run_finished {n : Nat} {cs : List Char} (h : run n (finished v) cs = some r') :
    r' = finished v := by
  induction n generalizing cs with
  | zero =>
    cases cs with
    | nil => exact (Option.some.inj h).symm
    | cons c cs => cases h
  | succ n ih =>
    cases cs with
    | nil => exact (Option.some.inj h).symm
    | cons c cs =>
      by_cases hc : isSpace c
      · rw [run_space hc] at h
        exact ih h
      · obtain ⟨t, left, r₁, _, hstep, _⟩ := exists_token_of_run hc h
        cases hstep

/-- What a reader takes in by itself it takes in alike with more frames around it and more text to come,
and in no more steps. -/
theorem run_inside {n : Nat} {cs rest : List Char} (h : run n r cs = some r') (hrest : Ends rest)
    (hinner : inside around r = some inner) (hinner' : inside around r' = some inner') :
    ∃ k ≤ n, ∀ m, run (k + m) inner (cs ++ rest) = run m inner' rest := by
  have hdone : ∀ {n : Nat} {r inner : Reader}, run n r [] = some r' → inside around r = some inner →
      ∃ k ≤ n, ∀ m, run (k + m) inner ([] ++ rest) = run m inner' rest := by
    intro n r inner h hinner
    rw [run_nil, Option.some_inj] at h
    subst h
    obtain rfl := Option.some.inj (hinner.symm.trans hinner')
    exact ⟨0, Nat.zero_le n, fun m => by rw [Nat.zero_add, List.nil_append]⟩
  induction n generalizing r inner cs with
  | zero =>
    cases cs with
    | nil => exact hdone h hinner
    | cons c cs => cases h
  | succ n ih =>
    cases cs with
    | nil => exact hdone h hinner
    | cons c cs =>
      by_cases hc : isSpace c
      · rw [run_space hc] at h
        obtain ⟨k, hk, hrun⟩ := ih h hinner
        refine ⟨k + 1, Nat.succ_le_succ hk, fun m => ?_⟩
        rw [Nat.add_right_comm, List.cons_append, run_space hc, hrun]
      · obtain ⟨t, left, r₁, hnext, hstep, hrest'⟩ := exists_token_of_run hc h
        have hstep' := step_inside hstep hinner
        -- A reader that is finished here stays so to the end.
        have hinner₁ : ∃ inner₁, inside around r₁ = some inner₁ := by
          cases r₁ with
          | reading stack awaiting => exact ⟨_, rfl⟩
          | finished v =>
            rw [run_finished hrest'] at hinner'
            exact ⟨_, hinner'⟩
        obtain ⟨inner₁, hinner₁⟩ := hinner₁
        obtain ⟨k, hk, hrun⟩ := ih hrest' hinner₁
        refine ⟨k + 1, Nat.succ_le_succ hk, fun m => ?_⟩
        have hnext' := next?_append hrest hnext
        rw [List.cons_append] at hnext' ⊢
        rw [Nat.add_right_comm, run_token hc hnext', hstep', hinner₁, Option.bind_some, hrun]

theorem run_firstItem {n : Nat} {cs : List Char} (h : run n (reading stack .value) cs = some (finished v)) :
    run n (reading stack .firstItem) cs = some (finished v) := by
  induction n generalizing cs with
  | zero =>
    cases cs with
    | nil => cases h
    | cons c cs => cases h
  | succ n ih =>
    cases cs with
    | nil => cases h
    | cons c cs =>
      by_cases hc : isSpace c
      · rw [run_space hc] at h ⊢
        exact ih h
      · obtain ⟨t, left, r₁, hnext, hstep, hrun⟩ := exists_token_of_run hc h
        have ht : t ≠ .closeArray := by
          rintro rfl
          cases hstep
        rw [run_token hc hnext, step_firstItem ht]
        exact Option.bind_eq_some_iff.2 ⟨r₁, hstep, hrun⟩

/-- The reader gets from one place of a text to a later one, in no more steps than there are characters
between them. -/
def Leads (r : Reader) (cs : List Char) (r' : Reader) (rest : List Char) : Prop :=
  ∃ k, k + rest.length ≤ cs.length ∧ ∀ m, run (k + m) r cs = run m r' rest

theorem Leads.refl (r : Reader) (cs : List Char) : Leads r cs r cs :=
  ⟨0, by omega, fun m => by rw [Nat.zero_add]⟩

theorem Leads.trans {r'' : Reader} {cs rest rest' : List Char} (h : Leads r cs r' rest)
    (h' : Leads r' rest r'' rest') : Leads r cs r'' rest' := by
  obtain ⟨k, hk, hrun⟩ := h
  obtain ⟨k', hk', hrun'⟩ := h'
  exact ⟨k + k', by omega, fun m => by rw [Nat.add_assoc, hrun, hrun']⟩

theorem Leads.token {c : Char} {cs left rest : List Char} {t : Token} {r₁ : Reader} (hc : ¬isSpace c)
    (hnext : Token.next? (c :: cs) = some (t, left)) (hleft : left.length ≤ cs.length)
    (hstep : r.step t = some r₁) (h : Leads r₁ left r' rest) : Leads r (c :: cs) r' rest := by
  obtain ⟨k, hk, hrun⟩ := h
  refine ⟨k + 1, by rw [List.length_cons]; omega, fun m => ?_⟩
  rw [Nat.add_right_comm, run_token hc hnext, hstep, Option.bind_some, hrun]

theorem Leads.firstItem {cs : List Char} (h : Leads (reading stack .value) cs (finished v) []) :
    Leads (reading stack .firstItem) cs (finished v) [] := by
  obtain ⟨k, hk, hrun⟩ := h
  exact ⟨k, hk, fun m => by rw [run_nil, run_firstItem ((hrun m).trans (run_nil m _))]⟩

/-- A text that is a value by itself is that value in its place. -/
theorem leads_of_read? {text : String} {rest : List Char} (h : read? text = some v) (hrest : Ends rest)
    (haccept : accept v around = some r') :
    Leads (reading around .value) (text.toList ++ rest) r' rest := by
  have hrun : run text.length start text.toList = some (finished v) := by
    unfold read? at h
    split at h
    · rw [← Option.some.inj h]
      assumption
    · cases h
  have hstart : inside around start = some (reading around .value) := rfl
  obtain ⟨k, hk, hinside⟩ := run_inside hrun hrest hstart haccept
  refine ⟨k, ?_, hinside⟩
  rw [List.length_append, String.length_toList]
  omega

theorem read?_of_leads {text : String} (h : Leads start text.toList (finished v) []) :
    read? text = some v := by
  obtain ⟨k, hk, hrun⟩ := h
  rw [List.length_nil, String.length_toList] at hk
  have hfuel : text.length = k + (text.length - k) := (Nat.add_sub_cancel' hk).symm
  rw [read?, hfuel, hrun, run_nil]

end Reader
end ServiceTypings.Json
