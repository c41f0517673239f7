import Eshkol.Core.JsonTidy

/-!
# What the Parser of JSON Accepts

The descent of the parser against the grammar. It answers a value for every text and leaves arrays
and objects open wherever it meets something it does not know; the scan counts braces and brackets
of the whole text, without regard to which closes which. Neither is enough to refuse a text that is
no JSON. Together they are, as far as nesting goes: every brace and bracket that the descent passes
closes what it has opened, so that nothing is left open if the scan counts zero.

`ValueSound`, `ArraySound` and `ObjectSound` say what a call has done between two positions: it may
have left some number of braces and brackets open, and if it has not, then a tidy text has been read
as the value that it denotes.
-/

namespace Eshkol.Core.Json

open Machine

variable {D : Type}

/-! ### Nesting -/

/-- What the scan knows of the part between two positions: if it finds nothing wrong from the first
on, then it finds nothing wrong from the second on either, with the braces and brackets counted that
the part leaves open. -/
def Leads (cs rest : List ℕ) (braces brackets : ℤ) : Prop :=
  ∀ b k, jsonStructuralLoop cs b k false false = none →
    jsonStructuralLoop rest (b + braces) (k + brackets) false false = none

theorem Leads.refl (cs : List ℕ) : Leads cs cs 0 0 := by
  intro b k h
  rwa [Int.add_zero, Int.add_zero]

variable {cs cs' rest after : List ℕ} {c fuel : ℕ} {v : Datum D} {before : Before}
  {s key : List UInt8} {ops : DoubleOps D} {elements : List (Datum D)}
  {ht : List (List UInt8 × Datum D)}

theorem Leads.trans {b k b' k' : ℤ} (h : Leads cs cs' b k) (h' : Leads cs' rest b' k') :
    Leads cs rest (b + b') (k + k') := by
  intro x y hxy
  rw [← Int.add_assoc, ← Int.add_assoc]
  exact h' _ _ (h x y hxy)

theorem leads_skip (cs : List ℕ) : Leads cs (jsonSkipWs cs) 0 0 := by
  intro b k h
  rwa [Int.add_zero, Int.add_zero, jsonStructuralLoop_skip]

theorem leads_uncounted {run : List ℕ} (h : ∀ c ∈ run, uncounted c = true) (rest : List ℕ) :
    Leads (run ++ rest) rest 0 0 := by
  intro b k hscan
  rwa [jsonStructuralLoop_uncounted h, ← Int.add_zero b, ← Int.add_zero k] at hscan

theorem leads_pass (h : uncounted c = true) (rest : List ℕ) : Leads (c :: rest) rest 0 0 :=
  @leads_uncounted [c] (List.forall_mem_singleton.mpr h) rest

theorem leads_openBrace (cs : List ℕ) : Leads (123 :: cs) cs 1 0 := by
  intro b k h
  rw [Int.add_zero]
  exact h

theorem leads_closeBrace (cs : List ℕ) : Leads (125 :: cs) cs (-1) 0 := by
  intro b k h
  rw [Int.add_zero]
  exact h

theorem leads_openBracket (cs : List ℕ) : Leads (91 :: cs) cs 0 1 := by
  intro b k h
  rw [Int.add_zero]
  exact h

theorem leads_closeBracket (cs : List ℕ) : Leads (93 :: cs) cs 0 (-1) := by
  intro b k h
  rw [Int.add_zero]
  exact h

/-! ### Values -/

theorem ws_skip (cs : List ℕ) : Ws cs (jsonSkipWs cs) := by
  induction cs with
  | nil => exact .nil []
  | cons c cs ih =>
    rw [jsonSkipWs]
    split
    next hc =>
      refine .cons ?_ ih
      simpa [jsonWhitespace, or_assoc] using hc
    next => exact .nil _

theorem Ws.trans (h : Ws cs cs') (h' : Ws cs' rest) : Ws cs rest := by
  induction h with
  | nil _ => exact h'
  | cons hc _ ih => exact .cons hc (ih h')

section Sound

variable (round : ℚ → D)

/-- What a call for a value has done between two positions. It may have left braces and brackets
open. If it has not, and the text is tidy, then it has read nothing but white space, or a value. -/
def ValueSound (cs : List ℕ) (v : Datum D) (rest : List ℕ) : Prop :=
  ∃ braces brackets : ℕ, Leads cs rest braces brackets ∧
    (braces = 0 → brackets = 0 → ∀ before, before ≠ .number → Tidy (.outside before) cs →
      jsonSkipWs cs = rest ∨ ∃ x cs₁, Ws cs cs₁ ∧ ValueAt cs₁ x rest ∧ Represents round v x ∧
        Tidy (.outside .value) rest)

/-- The same for the rest of an array, with the elements that have been read. -/
def ArraySound (cs : List ℕ) (elements : List (Datum D)) (v : Datum D) (rest : List ℕ) : Prop :=
  ∃ braces brackets : ℕ, Leads cs rest braces (brackets - 1) ∧
    (braces = 0 → brackets = 0 → ∀ before, before = .opening ∨ before = .comma →
      Tidy (.outside before) cs → ∃ items xs, v = .list (elements.reverse ++ items) ∧
        List.Forall₂ (Represents round) items xs ∧ Tidy (.outside .value) rest ∧
        (before = .opening ∧ xs = [] ∧ Ws cs (93 :: rest) ∨ Elements cs xs rest))

/-- The same for the rest of an object, with the table that has been filled. -/
def ObjectSound (cs : List ℕ) (ht : List (List UInt8 × Datum D)) (v : Datum D) (rest : List ℕ) :
    Prop :=
  ∃ braces brackets : ℕ, Leads cs rest (braces - 1) brackets ∧
    (braces = 0 → brackets = 0 → ∀ before, before = .opening ∨ before = .comma →
      Tidy (.outside before) cs → ∀ members, Represents round (.table ht) (.object members) →
      ∃ members', Represents round v (.object (members ++ members')) ∧ Tidy (.outside .value) rest ∧
        (before = .opening ∧ members' = [] ∧ Ws cs (125 :: rest) ∨ Members cs members' rest))

end Sound

variable {round : ℚ → D}

theorem ValueSound.of_skip (h : ValueSound round (jsonSkipWs cs) v rest) :
    ValueSound round cs v rest := by
  obtain ⟨braces, brackets, hleads, hread⟩ := h
  refine ⟨braces, brackets, ?_, fun hb hk before hbefore htidy => ?_⟩
  · simpa using (leads_skip cs).trans hleads
  · rcases hread hb hk before hbefore (htidy.skip hbefore) with hnothing | ⟨x, cs₁, hws, hx⟩
    · exact .inl (by rw [← hnothing, jsonSkipWs_skip])
    · exact .inr ⟨x, cs₁, (ws_skip cs).trans hws, hx⟩

theorem ValueSound.nothing (hskip : jsonSkipWs cs = cs) (v : Datum D) : ValueSound round cs v cs :=
  ⟨0, 0, .refl cs, fun _ _ _ _ _ => .inl hskip⟩

theorem Tidy.quote (h : Tidy (.outside before) (34 :: cs)) : Tidy .inString cs := by
  simpa [Tidy, jsonWhitespace, numberChar, jsonDigit] using h

/-- A string literal between two positions. One that is open at the end of the text counts as a
brace left open: the scan refuses both. -/
theorem leads_string (h : jsonParseStr cs [] = (s, rest)) :
    ∃ braces : ℕ, Leads (34 :: cs) rest braces 0 ∧
      (braces = 0 → Tidy .inString cs → ∃ chars, Chars cs chars rest ∧
        s = Codec.Utf8.encode chars ∧ Tidy (.outside .value) rest) := by
  rcases jsonParseStr_sound h with hopen | ⟨hscan, hread⟩
  · exact ⟨1, fun b k hnone => absurd hnone (hopen b k), fun hone => by cases hone⟩
  · refine ⟨0, fun b k hnone => ?_, fun _ => hread⟩
    rw [← hscan]
    simpa [jsonStructuralLoop] using hnone

theorem valueSound_string (h : jsonParseStr cs [] = (s, rest)) :
    ValueSound round (34 :: cs) (.string s) rest := by
  obtain ⟨braces, hleads, hread⟩ := leads_string h
  refine ⟨braces, 0, hleads, fun hb _ before _ htidy => .inr ?_⟩
  obtain ⟨chars, hchars, rfl, hrest⟩ := hread hb htidy.quote
  exact ⟨.string chars, _, .nil _, .string hchars, .string chars, hrest⟩

theorem jsonParseNum_rest (h : jsonParseNum ops (c :: cs) = .ok (v, rest)) :
    ∃ run, c :: cs = run ++ rest ∧ ∀ c ∈ run, numberChar c = true := by
  rw [jsonParseNum] at h
  obtain ⟨t, -, h⟩ := bind_eq_ok.mp h
  obtain ⟨-, rfl⟩ := Prod.mk.inj (Except.ok.inj h)
  by_cases hc : c = 45
  · subst hc
    obtain ⟨run, hrun, hchars⟩ := @jsonNumLoop_rest cs _ [] _ false false rfl
    refine ⟨45 :: run, congrArg (45 :: ·) hrun, ?_⟩
    exact List.forall_mem_cons.mpr ⟨rfl, hchars⟩
  · simp only [List.head?_cons, Option.some.injEq, hc, if_false]
    exact jsonNumLoop_rest rfl

theorem numberEnds_dropWhile (cs : List ℕ) : NumberEnds (cs.dropWhile numberChar) := by
  intro c hc
  have hhead := List.head?_dropWhile_not numberChar cs
  rw [hc] at hhead
  simpa using hhead

theorem valueSound_number (hops : ReadsNumerals ops round) (hc : (jsonDigit c || c = 45) = true)
    (h : jsonParseNum ops (c :: cs) = .ok (v, rest)) : ValueSound round (c :: cs) v rest := by
  obtain ⟨run, hrun, hchars⟩ := jsonParseNum_rest h
  refine ⟨0, 0, ?_, fun _ _ before hbefore htidy => .inr ?_⟩
  · rw [hrun]
    exact leads_uncounted (fun d hd => uncounted_of_numberChar (hchars d hd)) rest
  · obtain ⟨hws, -, hquote⟩ := number_first hc
    rw [Tidy, if_neg (by simp [hws]), if_neg fun h => hbefore h.1, if_neg hquote,
      if_pos hc] at htidy
    obtain ⟨⟨n, hn⟩, htidy⟩ := htidy
    have hsplit : c :: cs = n.text.map Char.toNat ++ cs.dropWhile numberChar := by
      rw [hn, List.cons_append, List.takeWhile_append_dropWhile]
    obtain ⟨w, hw, hvalue⟩ := jsonParseNum_numeral hops n (numberEnds_dropWhile cs)
    rw [hsplit, hw] at h
    obtain ⟨rfl, rfl⟩ := Prod.mk.inj (Except.ok.inj h)
    refine ⟨n.value, _, .nil _, hsplit ▸ .number n _, hvalue, ?_⟩
    refine Tidy.value_of_number (numberEnds_dropWhile cs) ?_
    rw [← List.takeWhile_append_dropWhile (p := numberChar) (l := cs)] at htidy
    exact Tidy.number (fun d hd => List.mem_takeWhile_imp hd) htidy

theorem valueSound_word {letters : List ℕ} {value : Datum D} {x : JsonValue}
    (h : jsonLiteralValue value letters c cs = (v, rest)) (hfirst : jsonWhitespace c = false)
    (hplain : ∀ d ∈ c :: letters, uncounted d = true)
    (hx : ∀ rest, ValueAt (c :: letters ++ rest) x rest) (hvalue : Represents round value x)
    (htidy : ∀ before rest, before ≠ .number → Tidy (.outside before) (c :: letters ++ rest) →
      Tidy (.outside .value) rest) : ValueSound round (c :: cs) v rest := by
  rw [jsonLiteralValue] at h
  split at h
  next hword =>
    obtain ⟨rest, rfl⟩ := hword
    rw [List.drop_left] at h
    cases h
    refine ⟨0, 0, ?_, fun _ _ before hbefore h => .inr ⟨x, _, .nil _, hx rest, hvalue, ?_⟩⟩
    · simpa using leads_uncounted hplain rest
    · exact htidy before rest hbefore h
  next =>
    cases h
    exact .nothing (jsonSkipWs_of_not hfirst cs) .null

/-! ### Arrays -/

theorem Tidy.comma (h : Tidy (.outside before) (44 :: cs)) :
    (before = .value ∨ before = .number) ∧ Tidy (.outside .comma) cs := by
  simpa [Tidy, jsonWhitespace, numberChar, jsonDigit] using h

theorem Tidy.close (hc : c = 93 ∨ c = 125) (h : Tidy (.outside before) (c :: cs)) :
    (before ≠ .comma ∧ before ≠ .colon) ∧ Tidy (.outside .value) cs := by
  rcases hc with rfl | rfl
  · simpa [Tidy, jsonWhitespace, numberChar, jsonDigit] using h
  · simpa [Tidy, jsonWhitespace, numberChar, jsonDigit] using h

theorem ValueSound.next (hread : jsonSkipWs cs = after ∨ ∃ x cs₁, Ws cs cs₁ ∧ ValueAt cs₁ x after ∧
      Represents round v x ∧ Tidy (.outside .value) after) (hbefore : before ≠ .number)
    (htidy : Tidy (.outside before) cs) (hskip : jsonSkipWs after = c :: cs') :
    jsonSkipWs cs = c :: cs' ∧ Tidy (.outside before) (c :: cs') ∨
      ∃ x cs₁, Ws cs cs₁ ∧ ValueAt cs₁ x after ∧ Represents round v x ∧ Ws after (c :: cs') ∧
        Tidy (.outside .value) (c :: cs') := by
  rcases hread with hnothing | ⟨x, cs₁, hws, hx, hrep, htail⟩
  · rw [← hnothing, jsonSkipWs_skip] at hskip
    have htidy := htidy.skip hbefore
    rw [hskip] at htidy
    exact .inl ⟨hskip, htidy⟩
  · have htail := htail.skip (by simp)
    have hgap := ws_skip after
    rw [hskip] at htail hgap
    exact .inr ⟨x, cs₁, hws, hx, hrep, hgap, htail⟩

theorem Before.ne_number (h : before = .opening ∨ before = .comma) :
    before ≠ .number ∧ before ≠ .value := by
  rcases h with rfl | rfl
  · simp
  · simp

theorem ArraySound.more {cs after cs' rest : List ℕ} {value v : Datum D} {elements : List (Datum D)}
    (hvalue : ValueSound round cs value after) (hskip : jsonSkipWs after = 44 :: cs')
    (hmore : ArraySound round cs' (value :: elements) v rest) :
    ArraySound round cs elements v rest := by
  obtain ⟨braces, brackets, hleads, helement⟩ := hvalue
  obtain ⟨braces', brackets', hleads', hrest⟩ := hmore
  have hgap := leads_skip after
  rw [hskip] at hgap
  refine ⟨braces + braces', brackets + brackets', ?_, ?_⟩
  · have hall := ((hleads.trans hgap).trans (leads_pass rfl cs')).trans hleads'
    push_cast
    simpa [Int.add_sub_assoc] using hall
  · intro hb hk before hbefore htidy
    obtain ⟨hnumber, hvalue⟩ := Before.ne_number hbefore
    have hread := helement (by omega) (by omega) before hnumber htidy
    rcases ValueSound.next hread hnumber htidy hskip with
      ⟨-, hbad⟩ | ⟨x, cs₁, hws, hx, hrep, hgap, htail⟩
    · exact absurd hbad.comma.1 (not_or.mpr ⟨hvalue, hnumber⟩)
    · obtain ⟨items, xs, rfl, hitems, htidy', hxs⟩ :=
        hrest (by omega) (by omega) .comma (.inr rfl) htail.comma.2
      refine ⟨value :: items, x :: xs, by simp, .cons hrep hitems, htidy', .inr ?_⟩
      -- after a comma the array cannot be at its end
      rcases hxs with ⟨hbad, -⟩ | hxs
      · cases hbad
      · exact .cons hws hx hgap hxs

theorem ArraySound.close {value : Datum D} (hvalue : ValueSound round cs value after)
    (hskip : jsonSkipWs after = 93 :: rest) (hfirst : jsonSkipWs cs ≠ 93 :: rest) :
    ArraySound round cs elements (.list (value :: elements).reverse) rest := by
  obtain ⟨braces, brackets, hleads, helement⟩ := hvalue
  have hgap := leads_skip after
  rw [hskip] at hgap
  refine ⟨braces, brackets, ?_, ?_⟩
  · simpa [Int.sub_eq_add_neg] using (hleads.trans hgap).trans (leads_closeBracket rest)
  · intro hb hk before hbefore htidy
    obtain ⟨hnumber, -⟩ := Before.ne_number hbefore
    have hread := helement hb hk before hnumber htidy
    rcases ValueSound.next hread hnumber htidy hskip with
      ⟨hbad, -⟩ | ⟨x, cs₁, hws, hx, hrep, hgap, htail⟩
    · exact absurd hbad hfirst
    · refine ⟨[value], [x], by simp, .cons hrep .nil, (htail.close (.inl rfl)).2, .inr ?_⟩
      exact .last hws hx hgap

theorem ArraySound.abandon {value : Datum D} (hvalue : ValueSound round cs value after)
    (elements : List (Datum D)) (v : Datum D) :
    ArraySound round cs elements v (jsonSkipWs after) := by
  obtain ⟨braces, brackets, hleads, -⟩ := hvalue
  refine ⟨braces, brackets + 1, ?_, fun _ hone => by cases hone⟩
  simpa using hleads.trans (leads_skip after)

/-- The elements loop, given what the calls in it accept. -/
theorem arraySound_step
    (hvalue : ∀ cs v rest, jsonParseValue ops fuel cs = .ok (v, rest) → ValueSound round cs v rest)
    (harray : ∀ cs elements v rest, jsonParseArr ops fuel cs elements = .ok (v, rest) →
      ArraySound round cs elements v rest)
    (h : jsonParseArr ops (fuel + 1) cs elements = .ok (v, rest)) :
    ArraySound round cs elements v rest := by
  have hleads := leads_skip cs
  have hgap := ws_skip cs
  rw [jsonParseArr] at h
  split at h
  next hskip =>
    cases h
    rw [hskip] at hleads
    exact ⟨0, 1, by simpa using hleads, fun _ hone => by cases hone⟩
  next c cs' hskip =>
    by_cases hclose : c = 93
    · subst hclose
      rw [if_pos rfl] at h
      cases h
      rw [hskip] at hleads hgap
      refine ⟨0, 0, by simpa using hleads.trans (leads_closeBracket _), ?_⟩
      intro _ _ before hbefore htidy
      have htidy := htidy.skip (Before.ne_number hbefore).1
      rw [hskip] at htidy
      obtain ⟨⟨hcomma, -⟩, htidy⟩ := htidy.close (.inl rfl)
      exact ⟨[], [], by simp, .nil, htidy, .inl ⟨hbefore.resolve_right hcomma, rfl, hgap⟩⟩
    · rw [if_neg hclose] at h
      obtain ⟨⟨value, after⟩, hread, h⟩ := bind_eq_ok.mp h
      rw [← hskip] at hread
      have helement := (hvalue _ _ _ hread).of_skip
      simp only at h
      split at h
      next hskip' =>
        cases h
        exact hskip' ▸ .abandon helement _ _
      next c₃ cs₃ hskip' =>
        split_ifs at h with hcomma hbracket
        · subst hcomma
          exact .more helement hskip' (harray _ _ _ _ h)
        · subst hbracket
          cases h
          refine .close helement hskip' fun hbad => hclose ?_
          rw [hskip] at hbad
          exact (List.cons.inj hbad).1
        · cases h
          exact hskip' ▸ .abandon helement _ _

/-! ### Objects -/

theorem lastMember_append (members : List (List Char × JsonValue)) (name : List Char)
    (x : JsonValue) (name' : List Char) :
    lastMember (members ++ [(name, x)]) name' =
      if name' = name then some x else lastMember members name' := by
  rw [lastMember, List.reverse_append, List.reverse_singleton, List.singleton_append,
    List.find?_cons]
  by_cases h : name' = name
  · simp [h]
  · simp [h, Ne.symm h, lastMember]

theorem Represents.hashSet {members : List (List Char × JsonValue)}
    (h : Represents round (.table ht) (.object members)) (name : List Char) {x : JsonValue}
    (hv : Represents round v x) :
    Represents round (.table (hashSet ht (Codec.Utf8.encode name) v))
      (.object (members ++ [(name, x)])) := by
  obtain ⟨hkeys, hvalues⟩ : (∀ key, hashTableContains ht key = true ↔
      ∃ name, key = Codec.Utf8.encode name ∧ (lastMember members name).isSome) ∧
      (∀ name v x, hashTableRef ht (Codec.Utf8.encode name) = some v →
        lastMember members name = some x → Represents round v x) := by
    cases h with
    | object hkeys hvalues => exact ⟨hkeys, hvalues⟩
  refine .object (fun key => ?_) fun name' v' x' hv' hx' => ?_
  · rw [hashTableContains, hashTableRef_hashSet]
    split
    next hkey =>
      refine iff_of_true rfl ⟨name, hkey, ?_⟩
      simp [lastMember_append]
    next hkey =>
      rw [← hashTableContains, hkeys]
      refine exists_congr fun name' => and_congr_right fun hkey' => ?_
      have hne : name' ≠ name := fun hname => hkey (by rw [hkey', hname])
      rw [lastMember_append, if_neg hne]
  · rw [hashTableRef_hashSet] at hv'
    rw [lastMember_append] at hx'
    by_cases hname : name' = name
    · rw [if_pos (congrArg _ hname)] at hv'
      rw [if_pos hname] at hx'
      cases hv'
      cases hx'
      exact hv
    · rw [if_neg fun heq => hname (Codec.Utf8.encode_injective heq)] at hv'
      rw [if_neg hname] at hx'
      exact hvalues name' v' x' hv' hx'

/-- What a member between two positions amounts to: its key and its value, or its key and a colon
with no value behind it. -/
def MemberSound (round : ℚ → D) (cs : List ℕ) (key : List UInt8) (value : Datum D)
    (after : List ℕ) : Prop :=
  ∃ braces brackets : ℕ, Leads cs after braces brackets ∧
    (braces = 0 → brackets = 0 → ∀ before, before ≠ .number → Tidy (.outside before) cs →
      ∃ name, key = Codec.Utf8.encode name ∧
        (jsonSkipWs after = after ∧ Tidy (.outside .colon) after ∨
          ∃ x, MemberAt cs name x after ∧ Represents round value x ∧ Tidy (.outside .value) after))

theorem memberSound {cs₁ cs₂ cs₃ : List ℕ} {value : Datum D} (hskip : jsonSkipWs cs = 34 :: cs₁)
    (hkey : jsonParseStr cs₁ [] = (key, cs₂)) (hcolon : jsonSkipWs cs₂ = 58 :: cs₃)
    (hvalue : ValueSound round cs₃ value after) : MemberSound round cs key value after := by
  obtain ⟨open', hleads, hname⟩ := leads_string hkey
  obtain ⟨braces, brackets, hleads', hread⟩ := hvalue
  have hbefore := leads_skip cs
  have hbetween := leads_skip cs₂
  have hws := ws_skip cs
  have hws' := ws_skip cs₂
  rw [hskip] at hbefore hws
  rw [hcolon] at hbetween hws'
  refine ⟨open' + braces, brackets, ?_, ?_⟩
  · have hfront := (hbefore.trans hleads).trans hbetween
    simpa using (hfront.trans (leads_pass rfl cs₃)).trans hleads'
  · intro hb hk before hnumber htidy
    have htidy := htidy.skip hnumber
    rw [hskip] at htidy
    obtain ⟨name, hchars, rfl, htidy⟩ := hname (by omega) htidy.quote
    have htidy := htidy.skip (by simp)
    rw [hcolon] at htidy
    have htidy : Tidy (.outside .colon) cs₃ := by
      simpa [Tidy, jsonWhitespace, numberChar, jsonDigit] using htidy
    refine ⟨name, rfl, ?_⟩
    rcases hread (by omega) hk .colon (by simp) htidy with
      hnothing | ⟨x, cs₄, hgap, hx, hrep, htail⟩
    · rw [← hnothing]
      exact .inl ⟨jsonSkipWs_skip cs₃, htidy.skip (by simp)⟩
    · exact .inr ⟨x, .mk hws hchars hws' hgap hx, hrep, htail⟩

theorem MemberSound.next {name : List Char} {value : Datum D}
    (hread : jsonSkipWs after = after ∧ Tidy (.outside .colon) after ∨
      ∃ x, MemberAt cs name x after ∧ Represents round value x ∧ Tidy (.outside .value) after)
    (hc : c = 44 ∨ c = 125) (hskip : jsonSkipWs after = c :: cs') :
    ∃ x, MemberAt cs name x after ∧ Represents round value x ∧ Ws after (c :: cs') ∧
      Tidy (.outside .value) (c :: cs') := by
  rcases hread with ⟨hsame, htidy⟩ | ⟨x, hmember, hrep, htail⟩
  · -- a colon must not be followed by a comma or a brace
    rw [← hsame, hskip] at htidy
    rcases hc with rfl | rfl
    · exact absurd htidy.comma.1 (by simp)
    · exact absurd rfl (htidy.close (.inr rfl)).1.2
  · have htail := htail.skip (by simp)
    have hgap := ws_skip after
    rw [hskip] at htail hgap
    exact ⟨x, hmember, hrep, hgap, htail⟩

theorem ObjectSound.more {value : Datum D} (hmember : MemberSound round cs key value after)
    (hskip : jsonSkipWs after = 44 :: cs')
    (hmore : ObjectSound round cs' (hashSet ht key value) v rest) :
    ObjectSound round cs ht v rest := by
  obtain ⟨braces, brackets, hleads, hread⟩ := hmember
  obtain ⟨braces', brackets', hleads', hrest⟩ := hmore
  have hgap := leads_skip after
  rw [hskip] at hgap
  refine ⟨braces + braces', brackets + brackets', ?_, ?_⟩
  · have hall := ((hleads.trans hgap).trans (leads_pass rfl cs')).trans hleads'
    push_cast
    simpa [Int.add_sub_assoc] using hall
  · intro hb hk before hbefore htidy members hmembers
    obtain ⟨name, rfl, hmember⟩ :=
      hread (by omega) (by omega) before (Before.ne_number hbefore).1 htidy
    obtain ⟨x, hx, hrep, hgap, htail⟩ := MemberSound.next hmember (.inl rfl) hskip
    obtain ⟨members', hobject, htidy', hxs⟩ :=
      hrest (by omega) (by omega) .comma (.inr rfl) htail.comma.2 _ (hmembers.hashSet name hrep)
    refine ⟨(name, x) :: members', by simpa using hobject, htidy', .inr ?_⟩
    rcases hxs with ⟨hbad, -⟩ | hxs
    · cases hbad
    · exact .cons hx hgap hxs

theorem ObjectSound.close {value : Datum D} (hmember : MemberSound round cs key value after)
    (hskip : jsonSkipWs after = 125 :: rest) :
    ObjectSound round cs ht (.table (hashSet ht key value)) rest := by
  obtain ⟨braces, brackets, hleads, hread⟩ := hmember
  have hgap := leads_skip after
  rw [hskip] at hgap
  refine ⟨braces, brackets, ?_, ?_⟩
  · simpa [Int.sub_eq_add_neg] using (hleads.trans hgap).trans (leads_closeBrace rest)
  · intro hb hk before hbefore htidy members hmembers
    obtain ⟨name, rfl, hmember⟩ := hread hb hk before (Before.ne_number hbefore).1 htidy
    obtain ⟨x, hx, hrep, hgap, htail⟩ := MemberSound.next hmember (.inr rfl) hskip
    refine ⟨[(name, x)], hmembers.hashSet name hrep, (htail.close (.inr rfl)).2, .inr ?_⟩
    exact .last hx hgap

theorem ObjectSound.abandon (braces brackets : ℕ) (hleads : Leads cs after braces brackets)
    (ht : List (List UInt8 × Datum D)) (v : Datum D) :
    ObjectSound round cs ht v (jsonSkipWs after) := by
  refine ⟨braces + 1, brackets, ?_, fun hone => by cases hone⟩
  simpa using hleads.trans (leads_skip after)

/-- The members loop, given what the calls in it accept. -/
theorem objectSound_step
    (hvalue : ∀ cs v rest, jsonParseValue ops fuel cs = .ok (v, rest) → ValueSound round cs v rest)
    (hobject : ∀ cs ht v rest, jsonParseObjLoop ops fuel cs ht = .ok (v, rest) →
      ObjectSound round cs ht v rest) (h : jsonParseObjLoop ops (fuel + 1) cs ht = .ok (v, rest)) :
    ObjectSound round cs ht v rest := by
  have hleads := leads_skip cs
  have hgap := ws_skip cs
  rw [jsonParseObjLoop] at h
  split at h
  next hskip =>
    cases h
    exact hskip ▸ .abandon 0 0 (.refl cs) _ _
  next c cs₁ hskip =>
    split_ifs at h with hbrace hquote
    · subst hbrace
      cases h
      rw [hskip] at hleads hgap
      refine ⟨0, 0, by simpa using hleads.trans (leads_closeBrace _), ?_⟩
      intro _ _ before hbefore htidy members hmembers
      have htidy := htidy.skip (Before.ne_number hbefore).1
      rw [hskip] at htidy
      obtain ⟨⟨hcomma, -⟩, htidy⟩ := htidy.close (.inr rfl)
      exact ⟨[], by simpa using hmembers, htidy, .inl ⟨hbefore.resolve_right hcomma, rfl, hgap⟩⟩
    · subst hquote
      generalize hkey : jsonParseStr cs₁ [] = out at h
      obtain ⟨key, cs₂⟩ := out
      obtain ⟨open', hleads', -⟩ := leads_string hkey
      rw [hskip] at hleads
      have hleads := hleads.trans hleads'
      simp only at h
      split at h
      next hskip' =>
        cases h
        exact hskip' ▸ .abandon open' 0 (by simpa using hleads) _ _
      next c₃ cs₃ hskip' =>
        by_cases hcolon : c₃ = 58
        · subst hcolon
          rw [if_neg (by simp)] at h
          obtain ⟨⟨value, after⟩, hread, h⟩ := bind_eq_ok.mp h
          have hmember := memberSound hskip hkey hskip' (hvalue _ _ _ hread)
          obtain ⟨braces, brackets, hopen, -⟩ := id hmember
          simp only at h
          split at h
          next hskip'' =>
            cases h
            exact hskip'' ▸ .abandon braces brackets hopen _ _
          next c₄ cs₄ hskip'' =>
            split_ifs at h with hcomma hbrace
            · subst hcomma
              exact .more hmember hskip'' (hobject _ _ _ _ h)
            · subst hbrace
              cases h
              exact .close hmember hskip''
            · cases h
              exact hskip'' ▸ .abandon braces brackets hopen _ _
        · rw [if_pos hcolon] at h
          cases h
          exact hskip' ▸ .abandon open' 0 (by simpa using hleads) _ _
    · cases h
      exact hskip ▸ .abandon 0 0 (.refl cs) _ _

/-! ### The whole text -/

theorem ArraySound.value (h : ArraySound round cs [] v rest) :
    ValueSound round (91 :: cs) v rest := by
  obtain ⟨braces, brackets, hleads, hread⟩ := h
  refine ⟨braces, brackets, ?_, fun hb hk before hbefore htidy => .inr ?_⟩
  · simpa using (leads_openBracket cs).trans hleads
  · have htidy : Tidy (.outside .opening) cs := by
      simpa [Tidy, jsonWhitespace, numberChar, jsonDigit] using htidy
    obtain ⟨items, xs, rfl, hitems, htail, hxs⟩ := hread hb hk .opening (.inl rfl) htidy
    refine ⟨.array xs, _, .nil _, ?_, .array hitems, htail⟩
    rcases hxs with ⟨-, rfl, hend⟩ | hxs
    · exact .emptyArray hend
    · exact .array hxs

theorem ObjectSound.value (h : ObjectSound round cs [] v rest) :
    ValueSound round (123 :: cs) v rest := by
  obtain ⟨braces, brackets, hleads, hread⟩ := h
  refine ⟨braces, brackets, ?_, fun hb hk before hbefore htidy => .inr ?_⟩
  · simpa using (leads_openBrace cs).trans hleads
  · have htidy : Tidy (.outside .opening) cs := by
      simpa [Tidy, jsonWhitespace, numberChar, jsonDigit] using htidy
    have hempty : Represents round (.table []) (.object []) :=
      .object (by simp [hashTableContains, hashTableRef, lastMember])
        (by simp [hashTableRef])
    obtain ⟨members, hobject, htail, hmembers⟩ := hread hb hk .opening (.inl rfl) htidy [] hempty
    refine ⟨.object members, _, .nil _, ?_, hobject, htail⟩
    rcases hmembers with ⟨-, rfl, hend⟩ | hmembers
    · exact .emptyObject hend
    · exact .object hmembers

/-- A value, given what the calls in it accept. -/
theorem valueSound_step (hops : ReadsNumerals ops round)
    (harray : ∀ cs elements v rest, jsonParseArr ops fuel cs elements = .ok (v, rest) →
      ArraySound round cs elements v rest)
    (hobject : ∀ cs ht v rest, jsonParseObjLoop ops fuel cs ht = .ok (v, rest) →
      ObjectSound round cs ht v rest) (h : jsonParseValue ops (fuel + 1) cs = .ok (v, rest)) :
    ValueSound round cs v rest := by
  apply ValueSound.of_skip
  rw [jsonParseValue] at h
  split at h
  next hskip =>
    cases h
    rw [hskip]
    exact .nothing rfl _
  next c cs' hskip =>
    rw [hskip]
    have hfirst := jsonWhitespace_of_skip hskip
    rcases ite_eq_iff.mp h with ⟨h₁, h⟩ | ⟨-, h⟩
    · subst h₁
      obtain ⟨rfl, rfl⟩ := Prod.mk.inj (Except.ok.inj h)
      exact valueSound_string rfl
    rcases ite_eq_iff.mp h with ⟨h₂, h⟩ | ⟨-, h⟩
    · exact valueSound_number hops h₂ h
    rcases ite_eq_iff.mp h with ⟨h₃, h⟩ | ⟨-, h⟩
    · subst h₃
      exact (hobject _ _ _ _ h).value
    rcases ite_eq_iff.mp h with ⟨h₄, h⟩ | ⟨-, h⟩
    · subst h₄
      exact (harray _ _ _ _ h).value
    rcases ite_eq_iff.mp h with ⟨h₅, h⟩ | ⟨-, h⟩
    · subst h₅
      refine valueSound_word (Except.ok.inj h) rfl (by simp [uncounted]) .true (.bool true) ?_
      intro before rest hbefore htidy
      simpa [Tidy, jsonWhitespace, numberChar, jsonDigit, hbefore] using htidy
    rcases ite_eq_iff.mp h with ⟨h₆, h⟩ | ⟨-, h⟩
    · subst h₆
      refine valueSound_word (Except.ok.inj h) rfl (by simp [uncounted]) .false (.bool false) ?_
      intro before rest hbefore htidy
      simpa [Tidy, jsonWhitespace, numberChar, jsonDigit, hbefore] using htidy
    rcases ite_eq_iff.mp h with ⟨h₇, h⟩ | ⟨-, h⟩
    · subst h₇
      refine valueSound_word (Except.ok.inj h) rfl (by simp [uncounted]) .null .null ?_
      intro before rest hbefore htidy
      simpa [Tidy, jsonWhitespace, numberChar, jsonDigit, hbefore] using htidy
    cases h
    exact .nothing (jsonSkipWs_of_not hfirst cs') _

theorem descent_sound (hops : ReadsNumerals ops round) (fuel : ℕ) :
    (∀ cs v rest, jsonParseValue ops fuel cs = .ok (v, rest) → ValueSound round cs v rest) ∧
    (∀ cs elements v rest, jsonParseArr ops fuel cs elements = .ok (v, rest) →
      ArraySound round cs elements v rest) ∧
    (∀ cs ht v rest, jsonParseObjLoop ops fuel cs ht = .ok (v, rest) →
      ObjectSound round cs ht v rest) := by
  induction fuel with
  | zero =>
    refine ⟨?_, ?_, ?_⟩
    · intro cs v rest h
      rw [jsonParseValue] at h
      cases h
    · intro cs elements v rest h
      rw [jsonParseArr] at h
      cases h
    · intro cs ht v rest h
      rw [jsonParseObjLoop] at h
      cases h
  | succ fuel ih =>
    obtain ⟨hvalue, harray, hobject⟩ := ih
    exact ⟨fun _ _ _ => valueSound_step hops harray hobject,
      fun _ _ _ _ => arraySound_step hvalue harray,
      fun _ _ _ _ => objectSound_step hvalue hobject⟩

theorem ws_of_skip_eq_nil (h : jsonSkipWs cs = []) : Ws cs [] := by
  rw [← h]
  exact ws_skip cs

theorem scan_eq_none (hskip : jsonSkipWs cs = []) {b k : ℤ}
    (h : jsonStructuralLoop cs b k false false = none) : b ≤ 0 ∧ k ≤ 0 := by
  rw [← jsonStructuralLoop_skip, hskip, jsonStructuralLoop, if_neg Bool.false_ne_true] at h
  split_ifs at h with hb hk
  exact ⟨not_lt.mp hb, not_lt.mp hk⟩

theorem jsonTryParseCodes_eq_ok (h : jsonTryParseCodes ops cs = .ok (.ok v)) :
    jsonStructuralLoop cs 0 0 false false = none ∧ ∃ rest,
      jsonParseDocument ops cs = .ok (v, rest) ∧ rest.length < (jsonSkipWs cs).length ∧
      jsonSkipWs rest = [] := by
  rw [jsonTryParseCodes] at h
  split at h
  next => cases h
  next =>
    dsimp only at h
    split at h
    next => cases h
    next =>
      split at h
      next => cases h
      next hscan =>
        obtain ⟨⟨value, rest⟩, hparse, h⟩ := bind_eq_ok.mp h
        dsimp only at h
        by_cases hstart : (jsonSkipWs cs).length ≤ rest.length
        · rw [if_pos hstart] at h
          cases h
        · by_cases hend : jsonSkipWs rest = []
          · rw [if_neg hstart, if_neg (not_not.mpr hend)] at h
            cases h
            exact ⟨hscan, rest, hparse, by omega, hend⟩
          · rw [if_neg hstart, if_pos hend] at h
            cases h

/-! ### Accepted texts -/

theorem stringLength_encode (text : List Char) :
    stringLength (Codec.Utf8.encode text) = text.length := by
  rw [stringLength, utf8StrlenLoop_eq, countP_encode, Nat.zero_add]

/-- `string-ref` reads the first character past ASCII as it is. -/
theorem stringRefCode_of_ascii_before {pre post : List Char} {c : Char}
    (hpre : ∀ d ∈ pre, d.toNat < 128) :
    stringRefCode (Codec.Utf8.encode (pre ++ c :: post)) pre.length = .ok c.toNat := by
  have hlen {cs : List Char} (hcs : ∀ d ∈ cs, d.toNat < 128) :
      (Codec.Utf8.encode cs).length = cs.length := by
    rw [← length_codes, (encode_ascii hcs).2, List.length_map]
  have hstop : utf8RefLoop pre.length (Codec.Utf8.encode (pre ++ c :: post)) 0 0 = pre.length := by
    cases hn : pre.length with
    | zero => exact utf8RefLoop_stop (by simp) _ _
    | succ n =>
      have htake : (pre ++ c :: post).take n = pre.take n :=
        List.take_append_of_le_length (by omega)
      rw [utf8RefLoop_encode (n := n) _ (by push_cast; omega), if_pos (by simp; omega), htake,
        hlen fun d hd => hpre d (List.mem_of_mem_take hd), List.length_take]
      omega
  have hwindow : (decodeWindow (Codec.Utf8.encode (pre ++ c :: post)) pre.length).bytes =
      [] ++ (String.utf8EncodeChar c ++ (Codec.Utf8.encode post).take
        (4 - (String.utf8EncodeChar c).length)) := by
    have hfour : (String.utf8EncodeChar c).length ≤ 4 := by
      have hc := Codec.Utf8.encodesChar c
      generalize String.utf8EncodeChar c = bs at hc
      cases hc <;> simp
    change ((Codec.Utf8.encode (pre ++ c :: post)).drop pre.length).take 4 = _
    rw [Codec.Utf8.encode_append, List.drop_left' (hlen hpre), Codec.Utf8.encode_cons,
      List.take_append, List.take_of_length_le hfour, List.nil_append]
  obtain ⟨j, hj⟩ := decodeUtf8Codepoint_encodesChar hwindow (Codec.Utf8.encodesChar c)
  have hlt : ¬stringLength (Codec.Utf8.encode (pre ++ c :: post)) ≤ pre.length := by
    rw [stringLength_encode]
    simp
  rw [List.length_nil] at hj
  rw [stringRefCode, if_neg hlt, hstop, hj]
  rfl

theorem ascii_of_stringCodes {text : List Char}
    (h : stringCodes (Codec.Utf8.encode text) = .ok cs) (hcs : ∀ c ∈ cs, c < 128) :
    ∀ c ∈ text, c.toNat < 128 := by
  rw [stringCodes, mapM_eq_ok, stringLength_encode] at h
  -- up to the first character past ASCII each is read as it is
  have hall (n : ℕ) : ∀ c ∈ text.take n, c.toNat < 128 := by
    induction n with
    | zero => simp
    | succ n ih =>
      cases hn : text[n]? with
      | none => rwa [List.take_add_one, hn, Option.toList_none, List.append_nil]
      | some c =>
        obtain ⟨hlt, hget⟩ := List.getElem?_eq_some_iff.mp hn
        have hsplit : text = text.take n ++ c :: text.drop (n + 1) := by
          rw [← hget, List.cons_getElem_drop_succ, List.take_append_drop]
        have hlen : (text.take n).length = n := List.length_take_of_le hlt.le
        have hread : stringRefCode (Codec.Utf8.encode (text.take n ++ c :: text.drop (n + 1)))
            (text.take n).length = .ok c.toNat := stringRefCode_of_ascii_before ih
        rw [← hsplit, hlen] at hread
        obtain ⟨hlength, hget⟩ := List.forall₂_iff_get.mp h
        have hn' : n < cs.length := by
          rw [← hlength, List.length_range]
          exact hlt
        have hcode := hget n (by simpa using hlt) hn'
        simp only [List.get_eq_getElem, List.getElem_range] at hcode
        rw [hread] at hcode
        rw [List.take_add_one, hn]
        refine List.forall_mem_append.mpr ⟨ih, List.forall_mem_singleton.mpr ?_⟩
        rw [Except.ok.inj hcode]
        exact hcs _ (List.getElem_mem hn')
  have htext := hall text.length
  rwa [List.take_length] at htext

/-- What the descent reads of a text, with the white space after it, is tidy. -/
def ReadsTidily (ops : DoubleOps D) (cs : List ℕ) : Prop :=
  ∀ v rest, jsonParseDocument ops cs = .ok (v, rest) →
    ∃ pre, cs = pre ++ jsonSkipWs rest ∧ Tidy (.outside .opening) pre

/-- **Accepted and tidy.** If a text is accepted then it is a JSON text, and the value is the one
that the text denotes, unless the scan lets it pass and the descent reads something that is not
tidy. -/
theorem jsonTryParse_tidy {ops : DoubleOps D} (hops : ReadsNumerals ops round) {text : List Char}
    (hcodes : stringCodes (Codec.Utf8.encode text) = .ok cs)
    (hread : jsonStructuralError cs ≠ none ∨ ReadsTidily ops cs) {v : Datum D}
    (h : jsonTryParse ops (.string (Codec.Utf8.encode text)) = .ok (.ok v)) :
    ∃ x, JsonText (text.map Char.toNat) x ∧ Represents round v x := by
  rw [jsonTryParse, hcodes, ok_bind] at h
  obtain ⟨hscan, rest, hparse, hlt, hend⟩ := jsonTryParseCodes_eq_ok h
  -- nothing but white space is left, so that all of the text is tidy
  have htidy : Tidy (.outside .opening) cs := by
    obtain ⟨pre, hpre, htidy⟩ := (hread.resolve_left (not_not.mpr hscan)) v rest hparse
    rw [hend, List.append_nil] at hpre
    rwa [hpre]
  have hascii := ascii_of_stringCodes hcodes htidy.ascii
  obtain ⟨hbytes, hmap⟩ := encode_ascii hascii
  rw [stringCodes_ascii hbytes, hmap] at hcodes
  obtain rfl := Except.ok.inj hcodes
  obtain ⟨braces, brackets, hleads, hread⟩ := (descent_sound hops _).1 _ _ _ hparse
  have hclosed := scan_eq_none hend (hleads 0 0 hscan)
  rcases hread (by omega) (by omega) .opening (by simp) htidy with
    hnothing | ⟨x, cs₁, hws, hx, hrep, -⟩
  · rw [hnothing] at hlt
    exact absurd hlt (Nat.lt_irrefl _)
  · exact ⟨x, ⟨cs₁, rest, hws, hx, ws_of_skip_eq_nil hend⟩, hrep⟩

/-- The number one in an array. -/
theorem jsonTryParse_tidy_array :
    ∃ x, JsonText (['[', '1', ']'].map Char.toNat) x ∧
      Represents (fun _ => ()) (.list [.number (.int64 1)]) x := by
  have hnumeral : IsNumeral [49] :=
    ⟨⟨false, ['1'], [], none, by simp, by simp, by simp, by simp⟩, rfl⟩
  have htidy : Tidy (.outside .opening) [91, 49, 93] := by
    simpa [Tidy, jsonWhitespace, numberChar, jsonDigit] using hnumeral
  have hops : ReadsNumerals { DoubleOps.unit with strtod := fun _ => ((), []) } fun _ => () :=
    fun _ _ => rfl
  obtain ⟨hascii, hmap⟩ := encode_ascii (show ∀ c ∈ ['[', '1', ']'], c.toNat < 128 by simp)
  have hcodes : stringCodes (Codec.Utf8.encode ['[', '1', ']']) = .ok [91, 49, 93] := by
    rw [stringCodes_ascii hascii, hmap]
    rfl
  refine jsonTryParse_tidy hops hcodes (.inr fun v rest hparse => ?_) rfl
  cases hparse
  exact ⟨[91, 49, 93], rfl, htidy⟩

/-- A minus on its own is accepted, as false, and is no JSON text. -/
theorem jsonTryParse_minus :
    jsonTryParse DoubleOps.unit (.string [45]) = .ok (.ok (.bool false)) ∧
      ¬∃ text x, [45] = Codec.Utf8.encode text ∧ JsonText (text.map Char.toNat) x := by
  refine ⟨rfl, ?_⟩
  rintro ⟨text, x, htext, cs₁, rest, hws, hx, -⟩
  obtain rfl : text = ['-'] := Codec.Utf8.encode_injective (htext.symm.trans rfl)
  have hcs : cs₁ = [45] := by
    cases hws with
    | nil => rfl
    | cons hc => simp at hc
  cases hx with
  | number n =>
    obtain ⟨c, cs, hbody, hc⟩ := n.body_first Exponent.letter
    have hdigit := toNat_of_isDigit hc
    rw [Numeral.text, hbody, signedText] at hcs
    split at hcs
    next => simp at hcs
    next =>
      have hminus : c.toNat = 45 := (List.cons.inj hcs).1
      omega
  | null | true | false | string _ | emptyArray _ | array _ | emptyObject _ | object _ =>
    simp at hcs

end Eshkol.Core.Json
