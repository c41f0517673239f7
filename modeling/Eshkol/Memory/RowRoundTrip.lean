import Eshkol.Memory.RowParse

/-!
# Rows Read Back

`ms-parse` after `sexp->canonical-string` in compiled code. A quote, a space or a bracket that
follows a character that is not ASCII is not seen, so that the string or symbol before it goes
on, and the datum is not read back. A symbol that is a line of its own ends with the line.
-/

open Codec.Utf8 Machine

namespace Eshkol.Memory.Row

variable {D : Type} {s : StringObject} {n : ℕ} {pre post : List Char}

/-! ### Reading back -/

/-- Every string and symbol of a datum is empty or ends with an ASCII character. -/
def TextsEndAscii : Sexp → Prop
  | .pair car cdr => TextsEndAscii car ∧ TextsEndAscii cdr
  | .str s => EndsAscii s
  | .sym t => EndsAscii t
  | _ => True

/-- A result with a value after some items: the expected one at the expected index, or none that
has the expected value. -/
structure Settles (good : Prop) (acc : List (Item D)) (v : Item D) (j : ℕ)
    (r : Exec Exn (Option (Item D × ℕ))) : Prop where
  right : good → r = .ok (some (msImproper acc v, j))
  wrong : ¬ good → ∀ w k, r = .ok (some (w, k)) → ∃ w', w = msImproper acc w' ∧ w' ≠ v

theorem Settles.of_eq {good : Prop} {acc : List (Item D)} {v : Item D} {j : ℕ}
    {r : Exec Exn (Option (Item D × ℕ))} (hgood : good)
    (h : r = .ok (some (msImproper acc v, j))) : Settles good acc v j r :=
  ⟨fun _ => h, fun hbad => absurd hgood hbad⟩

variable {c : Char} {t : List Char}

theorem At.skipWs_stop (h : At s n pre (c :: post)) (hpre : EndsAscii pre) (hc : c ≠ ' ') :
    msSkipWs s n pre.length = .ok pre.length := by
  have hcode : (c.toNat : ℤ) ≠ 32 := by
    have hne : c.toNat ≠ 32 := fun heq => hc (Char.toNat_inj.mp heq)
    exact_mod_cast hne
  have hseen : seenCode pre c = c.toNat := if_pos hpre
  rw [msSkipWs, h.scan_step, hseen, if_neg (by simpa using hcode)]

theorem At.skipWs_space (h : At s n pre (' ' :: c :: post)) (hpre : EndsAscii pre) (hc : c ≠ ' ') :
    msSkipWs s n pre.length = .ok (pre ++ [' ']).length := by
  have hseen : seenCode pre ' ' = 32 := if_pos hpre
  rw [msSkipWs, h.scan_step, hseen, if_pos (by decide)]
  exact h.step.skipWs_stop (endsAscii_concat.mpr (by decide)) hc

theorem msParseList_acc (ops : DoubleOps D) {calls i k : ℕ} {acc : List (Item D)} {w : Item D}
    (h : msParseList ops s n calls i acc = .ok (some (w, k))) : ∃ w', w = msImproper acc w' := by
  induction calls generalizing i acc with
  | zero => cases h
  | succ calls ih =>
    rw [msParseList] at h
    split at h
    next => cases h
    obtain ⟨c, -, h⟩ := bind_eq_ok.mp h
    split at h
    next =>
      cases h
      exact ⟨_, rfl⟩
    obtain ⟨dot, -, h⟩ := bind_eq_ok.mp h
    split at h
    next =>
      obtain ⟨r, -, h⟩ := bind_eq_ok.mp h
      cases r with
      | none => cases h
      | some r =>
        obtain ⟨j, -, h⟩ := bind_eq_ok.mp h
        split at h
        next => cases h
        obtain ⟨c, -, h⟩ := bind_eq_ok.mp h
        split at h
        next =>
          cases h
          exact ⟨_, rfl⟩
        next => cases h
    next =>
      obtain ⟨r, -, h⟩ := bind_eq_ok.mp h
      cases r with
      | none => cases h
      | some r =>
        obtain ⟨j, -, h⟩ := bind_eq_ok.mp h
        obtain ⟨w', rfl⟩ := ih h
        exact ⟨.pair r.1 w', rfl⟩

/-- What the parser does with the text of a datum, and with what follows the first item of a list
whose tail it is. -/
structure Reads (ops : DoubleOps D) (d : Sexp) (v : Item D) : Prop where
  datum {s : StringObject} {n calls : ℕ} {pre post : List Char} :
    At s n pre (canonicalString d ++ post) → EndsAscii pre → Delimited post →
    (canonicalString d).length < calls →
    Settles (TextsEndAscii d ∨ post = [] ∧ ∃ t, d = .sym t) [] v
      (pre ++ canonicalString d).length (msParseAt ops s n calls pre.length)
  tail {s : StringObject} {n calls : ℕ} {pre post : List Char} {acc : List (Item D)} :
    At s n pre (cdrString d ++ ')' :: post) → EndsAscii pre → (cdrString d).length < calls →
    Settles (TextsEndAscii d) acc v (pre ++ cdrString d ++ [')']).length
      (msSkipWs s n pre.length >>= fun i => msParseList ops s n calls i acc)

theorem Readable.endsAscii {d : Sexp} (hd : Readable d) (hend : TextsEndAscii d) :
    EndsAscii (canonicalString d) := by
  have hlast {t : List Char} {c : Char} (hc : c.toNat < 128) : EndsAscii (t ++ [c]) :=
    endsAscii_concat.mpr hc
  cases hd with
  | null => exact hlast (t := ['(']) (by decide)
  | bool b => cases b <;> exact hlast (t := ['#']) (by decide)
  | str => exact hlast (t := '"' :: _) (by decide)
  | pair =>
    rw [canonicalString, ← List.append_assoc, ← List.cons_append]
    exact hlast (by decide)
  | sym => exact hend
  | int x =>
    intro c hc
    have hmem : c ∈ intText x := List.mem_of_getLast? hc
    rw [intText] at hmem
    split at hmem
    next =>
      rcases List.mem_cons.mp hmem with rfl | hmem
      · decide
      · exact (isAscii_of_isDigit (isDigit_of_mem_natText hmem)).2
    next => exact (isAscii_of_isDigit (isDigit_of_mem_natText hmem)).2

theorem toNat_ne {d : Char} (h : c ≠ d) : (c.toNat : ℤ) ≠ d.toNat := by
  have hne : c.toNat ≠ d.toNat := fun heq => h (Char.toNat_inj.mp heq)
  exact_mod_cast hne

theorem At.not_dotted (ht : Starts t) (h : At s n pre (t ++ post)) (hpre : EndsAscii pre) :
    ∃ c : ℤ, stringRefAt s pre.length = .ok c ∧ c ≠ 41 ∧ dotted s n pre.length c = .ok false := by
  obtain ⟨c, t, rfl, -, hclose, hdot⟩ := ht
  have href : stringRefAt s pre.length = .ok (c.toNat : ℤ) :=
    h.ref.trans (by rw [seenCode, if_pos hpre])
  refine ⟨_, href, toNat_ne hclose, ?_⟩
  rw [dotted]
  split
  next hpoint =>
    obtain rfl : c = '.' := by
      by_contra hne
      exact toNat_ne hne hpoint.1
    obtain ⟨d, t', rfl, hd⟩ := hdot rfl
    have hnext : stringRefAt s (pre ++ ['.']).length = .ok (d.toNat : ℤ) :=
      h.step.ref.trans (by rw [seenCode, if_pos (endsAscii_concat.mpr (by decide))])
    rw [List.length_append, List.length_singleton] at hnext
    rw [hnext, ok_bind, decide_eq_false (show (d.toNat : ℤ) ≠ 32 from toNat_ne hd)]
  next => rfl

/-- The elements of a list are read back. -/
theorem Reads.list {ops : DoubleOps D} {car cdr : Sexp} {a b : Item D}
    (hstart : Starts (canonicalString car))
    (hends : TextsEndAscii car → EndsAscii (canonicalString car))
    (hcar : Reads ops car a) (hcdr : Reads ops cdr b) {calls : ℕ} {acc : List (Item D)}
    (h : At s n pre (canonicalString car ++ (cdrString cdr ++ ')' :: post))) (hpre : EndsAscii pre)
    (hcalls : (canonicalString car).length + (cdrString cdr).length < calls) :
    Settles (TextsEndAscii car ∧ TextsEndAscii cdr) acc (.pair a b)
      (pre ++ canonicalString car ++ cdrString cdr ++ [')']).length
      (msParseList ops s n (calls + 1) pre.length acc) := by
  obtain ⟨c, href, hclose, hdot⟩ := h.not_dotted hstart hpre
  have hlt : ¬ n ≤ pre.length := by
    obtain ⟨c, t, htext, -⟩ := hstart
    rw [htext] at h
    exact Nat.not_le.mpr h.lt
  have hne : cdrString cdr ++ ')' :: post ≠ [] := by simp
  have hdatum := hcar.datum h hpre (delimited_cdrString cdr post) (by omega : _ < calls)
  simp only [hne, false_and, or_false] at hdatum
  rw [msParseList, if_neg hlt, href, ok_bind, if_neg hclose, hdot, ok_bind, if_neg (by simp)]
  by_cases hgood : TextsEndAscii car
  · -- the item is right, so that everything is up to the tail
    have hnext : EndsAscii (pre ++ canonicalString car) := by
      obtain ⟨c, t, htext, -⟩ := hstart
      rw [endsAscii_append (by rw [htext]; exact List.cons_ne_nil _ _)]
      exact hends hgood
    have htail : Settles _ (a :: acc) b _ _ := hcdr.tail h.move hnext (by omega : _ < calls)
    rw [hdatum.right hgood, ok_bind]
    refine ⟨fun hboth => htail.right hboth.2, fun hbad w k hw => ?_⟩
    obtain ⟨w', rfl, hne⟩ := htail.wrong (fun hcdr => hbad ⟨hgood, hcdr⟩) w k hw
    exact ⟨.pair a w', rfl, fun heq => hne (Item.pair.inj heq).2⟩
  · refine ⟨fun hboth => absurd hboth.1 hgood, fun _ w k hw => ?_⟩
    obtain ⟨r, hr, hw⟩ := bind_eq_ok.mp hw
    cases r with
    | none => cases hw
    | some r =>
      obtain ⟨x, hx, hxa⟩ := hdatum.wrong hgood r.1 r.2 hr
      obtain ⟨j, -, hw⟩ := bind_eq_ok.mp hw
      obtain ⟨w', rfl⟩ := msParseList_acc ops hw
      refine ⟨.pair r.1 w', rfl, fun heq => hxa ?_⟩
      rw [← (Item.pair.inj heq).1, hx]
      rfl

/-- Pairs are read back. -/
theorem Reads.pair {ops : DoubleOps D} {car cdr : Sexp} {a b : Item D}
    (hstart : Starts (canonicalString car))
    (hends : TextsEndAscii car → EndsAscii (canonicalString car))
    (hcar : Reads ops car a) (hcdr : Reads ops cdr b) :
    Reads ops (.pair car cdr) (.pair a b) := by
  refine ⟨?_, ?_⟩
  · intro s n calls pre post h hpre _ hcalls
    simp only [canonicalString, List.length_cons, List.length_append, List.length_nil] at hcalls
    obtain ⟨calls, rfl⟩ : ∃ m, calls = m + 2 := ⟨calls - 2, by omega⟩
    have htext : canonicalString (.pair car cdr) ++ post =
        '(' :: (canonicalString car ++ (cdrString cdr ++ ')' :: post)) := by
      simp [canonicalString]
    rw [htext] at h
    have hopen : EndsAscii (pre ++ ['(']) := endsAscii_concat.mpr (by decide)
    have hskip : msSkipWs s n (pre ++ ['(']).length = .ok (pre ++ ['(']).length := by
      obtain ⟨c, t, hcar, hc, -⟩ := hstart
      have hstep := h.step
      rw [hcar] at hstep
      exact hstep.skipWs_stop hopen hc
    have href : stringRefAt s pre.length = .ok 40 :=
      h.ref.trans (by rw [seenCode, if_pos hpre]; rfl)
    have hlist : Settles _ [] _ _ _ :=
      Reads.list hstart hends hcar hcdr h.step hopen (by omega : _ < calls)
    have hone : (pre ++ ['(']).length = pre.length + 1 := by simp
    rw [hone] at hlist hskip
    rw [msParseAt, h.skipWs_stop hpre (by decide), ok_bind, if_neg (Nat.not_le.mpr h.lt), href,
      ok_bind, if_pos rfl, hskip, ok_bind]
    have hlen : (pre ++ canonicalString (.pair car cdr)).length =
        (pre ++ ['('] ++ canonicalString car ++ cdrString cdr ++ [')']).length := by
      simp [canonicalString]
    rw [hlen]
    have hnosym : (∃ t, Sexp.pair car cdr = .sym t) ↔ False := by simp
    simp only [hnosym, and_false, or_false]
    exact hlist
  · intro s n calls pre post acc h hpre hcalls
    simp only [cdrString, List.length_cons, List.length_append] at hcalls
    obtain ⟨calls, rfl⟩ : ∃ m, calls = m + 1 := ⟨calls - 1, by omega⟩
    have htext : cdrString (.pair car cdr) ++ ')' :: post =
        ' ' :: (canonicalString car ++ (cdrString cdr ++ ')' :: post)) := by
      simp [cdrString]
    rw [htext] at h
    have hskip : msSkipWs s n pre.length = .ok (pre ++ [' ']).length := by
      obtain ⟨c, t, hcar, hc, -⟩ := hstart
      rw [hcar] at h
      exact At.skipWs_space h hpre hc
    have hlist : Settles _ acc _ _ _ :=
      Reads.list hstart hends hcar hcdr h.step (endsAscii_concat.mpr (by decide))
        (by omega : _ < calls)
    have hlen : (pre ++ cdrString (.pair car cdr) ++ [')']).length =
        (pre ++ [' '] ++ canonicalString car ++ cdrString cdr ++ [')']).length := by
      simp [cdrString]
    rw [hskip, ok_bind, hlen]
    exact hlist

/-- A datum that is no list is read back in a list too. -/
theorem Reads.of_atom {ops : DoubleOps D} {d : Sexp} {v : Item D}
    (hcdr : cdrString d = ' ' :: '.' :: ' ' :: canonicalString d) (hne : canonicalString d ≠ [])
    (hends : TextsEndAscii d → EndsAscii (canonicalString d))
    (hat : ∀ {s n calls pre post}, At s n pre (canonicalString d ++ post) → EndsAscii pre →
      Delimited post → Settles (TextsEndAscii d ∨ post = [] ∧ ∃ t, d = .sym t) [] v
        (pre ++ canonicalString d).length (msParseAt ops s n (calls + 1) pre.length)) :
    Reads ops d v := by
  refine ⟨?_, ?_⟩
  · intro s n calls pre post h hpre hpost hcalls
    obtain ⟨calls, rfl⟩ := Nat.exists_eq_add_of_lt hcalls
    exact hat h hpre hpost
  · intro s n calls pre post acc h hpre hcalls
    rw [hcdr] at hcalls h ⊢
    obtain ⟨calls, rfl⟩ : ∃ m, calls = m + 2 :=
      ⟨calls - 2, by simp only [List.length_cons] at hcalls; omega⟩
    have hdelim : Delimited (')' :: post) := by
      rintro c ⟨⟩
      rfl
    have hspace : EndsAscii (pre ++ [' ']) := endsAscii_concat.mpr (by decide)
    have hdot : EndsAscii (pre ++ [' '] ++ ['.']) := endsAscii_concat.mpr (by decide)
    have hlen : (pre ++ [' '] ++ ['.'] ++ [' ']).length = (pre ++ [' ']).length + 2 := by simp
    have hdatum : Settles _ _ _ _ (msParseAt ops s n (calls + 1) _) :=
      hat h.step.step.step (endsAscii_concat.mpr (by decide)) hdelim
    simp only [List.cons_ne_nil, false_and, or_false, hlen] at hdatum
    have hpoint : stringRefAt s (pre ++ [' ']).length = .ok 46 :=
      h.step.ref.trans (by rw [seenCode, if_pos hspace]; rfl)
    have hblank : stringRefAt s ((pre ++ [' ']).length + 1) = .ok 32 := by
      have href := h.step.step.ref
      rw [seenCode, if_pos hdot, List.length_append, List.length_singleton] at href
      exact href
    have hdotted : dotted s n (pre ++ [' ']).length 46 = .ok true := by
      have hlt := h.step.step.lt
      rw [List.length_append, List.length_singleton] at hlt
      rw [dotted, if_pos ⟨rfl, hlt⟩, hblank]
      rfl
    rw [h.skipWs_space hpre (by decide), ok_bind, msParseList,
      if_neg (Nat.not_le.mpr h.step.lt), hpoint, ok_bind, if_neg (by decide), hdotted, ok_bind,
      if_pos rfl]
    by_cases hgood : TextsEndAscii d
    · have hclose := h.step.step.step.move
      have hascii : EndsAscii (pre ++ [' '] ++ ['.'] ++ [' '] ++ canonicalString d) :=
        (endsAscii_append hne).mpr (hends hgood)
      have href := hclose.ref
      rw [seenCode, if_pos hascii] at href
      refine .of_eq hgood ?_
      rw [hdatum.right hgood, ok_bind]
      dsimp only
      rw [hclose.skipWs_stop hascii (by decide), ok_bind, if_neg (Nat.not_le.mpr hclose.lt), href,
        ok_bind, if_pos (by decide)]
      simp only [msImproper, List.foldl_nil, List.length_append, List.length_cons, List.length_nil]
      congr 3
      omega
    · refine ⟨fun h => absurd h hgood, fun _ w k hw => ?_⟩
      obtain ⟨r, hr, hw⟩ := bind_eq_ok.mp hw
      cases r with
      | none => cases hw
      | some r =>
        obtain ⟨x, hx, hxv⟩ := hdatum.wrong hgood r.1 r.2 hr
        obtain ⟨j, -, hw⟩ := bind_eq_ok.mp hw
        split at hw
        next => cases hw
        obtain ⟨c, -, hw⟩ := bind_eq_ok.mp hw
        split at hw
        next =>
          cases hw
          exact ⟨r.1, rfl, hx ▸ hxv⟩
        next => cases hw

theorem Reads.null (ops : DoubleOps D) : Reads ops .null (.null : Item D) := by
  refine ⟨?_, ?_⟩
  · intro s n calls pre post h hpre _ hcalls
    have hlen : (canonicalString .null).length = 2 := rfl
    obtain ⟨calls, rfl⟩ : ∃ m, calls = m + 2 := ⟨calls - 2, by omega⟩
    have h : At s n pre ('(' :: ')' :: post) := h
    have hopen : EndsAscii (pre ++ ['(']) := endsAscii_concat.mpr (by decide)
    have href : stringRefAt s pre.length = .ok 40 :=
      h.ref.trans (by rw [seenCode, if_pos hpre]; rfl)
    have hclose : stringRefAt s (pre ++ ['(']).length = .ok 41 :=
      h.step.ref.trans (by rw [seenCode, if_pos hopen]; rfl)
    have hskip := h.step.skipWs_stop hopen (by decide)
    have hlt := h.step.lt
    have hone : (pre ++ ['(']).length = pre.length + 1 := by simp
    rw [hone] at hskip hclose hlt
    refine .of_eq (.inl trivial) ?_
    rw [msParseAt, h.skipWs_stop hpre (by decide), ok_bind, if_neg (Nat.not_le.mpr h.lt), href,
      ok_bind, if_pos rfl, hskip, ok_bind, msParseList, if_neg (Nat.not_le.mpr hlt), hclose,
      ok_bind, if_pos rfl, List.length_append, hlen]
  · intro s n calls pre post acc h hpre hcalls
    obtain ⟨calls, rfl⟩ := Nat.exists_eq_add_of_lt hcalls
    have h : At s n pre (')' :: post) := h
    have href : stringRefAt s pre.length = .ok 41 :=
      h.ref.trans (by rw [seenCode, if_pos hpre]; rfl)
    refine .of_eq trivial ?_
    rw [h.skipWs_stop hpre (by decide), ok_bind, msParseList, if_neg (Nat.not_le.mpr h.lt), href,
      ok_bind, if_pos rfl]
    simp [cdrString]

theorem Reads.bool (ops : DoubleOps D) (b : Bool) :
    Reads ops (.bool b) (.tagged (.bool b) : Item D) := by
  refine .of_atom rfl (by cases b <;> simp [canonicalString, atomString])
    (fun _ => Readable.endsAscii (.bool b) trivial) fun {s n calls pre post} h hpre _ => ?_
  obtain ⟨c, hc, htext⟩ : ∃ c, c = (if b then 't' else 'f') ∧
      canonicalString (.bool b) = ['#', c] := by
    cases b <;> exact ⟨_, rfl, rfl⟩
  rw [htext] at h ⊢
  have h : At s n pre ('#' :: c :: post) := h
  have href : stringRefAt s pre.length = .ok 35 := h.ref.trans (by rw [seenCode, if_pos hpre]; rfl)
  have hnext : stringRefAt s (pre.length + 1) = .ok (c.toNat : ℤ) := by
    have hstep := h.step.ref
    rw [seenCode, if_pos (endsAscii_concat.mpr (by decide)), List.length_append] at hstep
    exact hstep
  have hlt := h.step.lt
  rw [List.length_append, List.length_singleton] at hlt
  refine .of_eq (.inl trivial) ?_
  rw [msParseAt, h.skipWs_stop hpre (by decide), ok_bind, if_neg (Nat.not_le.mpr h.lt), href,
    ok_bind, if_neg (by decide), if_neg (by decide), if_pos rfl, msParseHash,
    if_neg (Nat.not_le.mpr hlt), hnext, ok_bind, List.length_append]
  cases b <;> subst hc <;> rfl

/-! ### Atoms -/

theorem atomCode_toNat (h : msAtomChar c = true) : atomCode c.toNat = true := by
  rw [msAtomChar, decide_eq_true_eq] at h
  rw [atomCode, decide_eq_true_eq]
  exact ⟨toNat_ne h.1, toNat_ne h.2.1, toNat_ne h.2.2⟩

theorem delimiter_cases (h : msAtomChar c = false) : c = ' ' ∨ c = '(' ∨ c = ')' := by
  rw [msAtomChar, decide_eq_false_iff_not] at h
  tauto

theorem At.atomEnd (h : At s n pre (t ++ post)) (ht : ∀ c ∈ t, msAtomChar c)
    (hpost : Delimited post) (hseen : post = [] ∨ EndsAscii (pre ++ t)) :
    msAtomEnd s n pre.length = .ok (pre ++ t).length := by
  rw [msAtomEnd, h.scan_text (fun c hc => atomCode_toNat (ht c hc)) (by decide)]
  cases post with
  | nil => exact h.move.scan_end _
  | cons c post =>
    have hends := hseen.resolve_left (List.cons_ne_nil c post)
    have hstop : atomCode (seenCode (pre ++ t) c) = false := by
      rw [seenCode, if_pos hends]
      rcases delimiter_cases (hpost c rfl) with rfl | rfl | rfl <;> rfl
    rw [h.move.scan_step, if_neg (by simp [hstop])]

theorem At.atomEnd_unseen {e : ℕ} (h : At s n pre (t ++ c :: post)) (ht : ∀ c ∈ t, msAtomChar c)
    (hunseen : ¬ EndsAscii (pre ++ t)) (he : msAtomEnd s n pre.length = .ok e) :
    ∃ t' rest, post = t' ++ rest ∧ e = (pre ++ (t ++ c :: t')).length := by
  have hpass : atomCode (seenCode (pre ++ t) c) = true := by
    rw [seenCode, if_neg hunseen]
    rfl
  rw [msAtomEnd, h.scan_text (fun c hc => atomCode_toNat (ht c hc)) (by decide), h.move.scan_step,
    if_pos hpass] at he
  obtain ⟨t', rest, hpost, hscan⟩ := h.move.step.scan atomCode
  rw [hscan, Except.ok.injEq] at he
  exact ⟨t', rest, hpost, by rw [← he]; simp⟩

theorem At.parseAt_atom (ops : DoubleOps D) (h : At s n pre (t ++ post)) (hpre : EndsAscii pre)
    (ht : Starts t) (hatom : ∀ c ∈ t, msAtomChar c) (hquote : t.head? ≠ some '"')
    (hhash : t.head? ≠ some '#') (calls : ℕ) :
    msParseAt ops s n (calls + 1) pre.length = msParseAtom ops s n pre.length := by
  obtain ⟨c, t, rfl, hblank, -⟩ := ht
  have href : stringRefAt s pre.length = .ok (c.toNat : ℤ) :=
    h.ref.trans (by rw [seenCode, if_pos hpre])
  have hopen : (c.toNat : ℤ) ≠ 40 := by
    refine toNat_ne (d := '(') ?_
    rintro rfl
    exact absurd (hatom _ List.mem_cons_self) (by decide)
  have hquote : (c.toNat : ℤ) ≠ 34 := toNat_ne (d := '"') fun heq => hquote (congrArg some heq)
  have hhash : (c.toNat : ℤ) ≠ 35 := toNat_ne (d := '#') fun heq => hhash (congrArg some heq)
  rw [msParseAt, h.skipWs_stop hpre hblank, ok_bind, if_neg (Nat.not_le.mpr h.lt), href, ok_bind,
    if_neg hopen, if_neg hquote, if_neg hhash]

theorem Reads.int (ops : DoubleOps D) {x : Tagged D} {z : ℤ} (hx : Operand x)
    (hz : x.toInt = some z) : Reads ops (.num z) (.tagged x) := by
  have hatom : ∀ c ∈ intText z, msAtomChar c := fun _ => msAtomChar_of_mem_intText
  have hhead (c : Char) (hc : c ∉ intText z) : (intText z).head? ≠ some c :=
    fun heq => hc (List.mem_of_mem_head? heq)
  have hends : EndsAscii (intText z) := Readable.endsAscii (.int z) trivial
  have hascii : ∀ c ∈ intText z, IsAscii c := by
    intro c hc
    rw [intText] at hc
    split at hc
    next =>
      rcases List.mem_cons.mp hc with rfl | hc
      · decide
      · exact isAscii_of_isDigit (isDigit_of_mem_natText hc)
    next => exact isAscii_of_isDigit (isDigit_of_mem_natText hc)
  have htok : cString (encode (intText z)) = intText z := by
    rw [encode_ascii fun c hc => (hascii c hc).2, cString_asciiBytes hascii]
  refine .of_atom rfl (intText_ne_nil z) (fun _ => hends) ?_
  intro s n calls pre post h hpre hpost
  have h : At s n pre (intText z ++ post) := h
  have he := h.atomEnd hatom hpost (.inr ((endsAscii_append (intText_ne_nil z)).mpr hends))
  refine .of_eq (.inl trivial) ?_
  rw [h.parseAt_atom ops hpre (starts_intText z) hatom (hhead _ (notMem_intText rfl (by decide)))
    (hhead _ (notMem_intText rfl (by decide))), h.parseAtom ops (intText_ne_nil z) he,
    if_pos (msNumericToken_intText z), htok,
    stringToNumber_integer ops hx hz]
  rfl

theorem msNumericToken_eq_false (hc : c ∈ t.tail) (hdigit : c.isDigit = false) (hdot : c ≠ '.') :
    Memory.msNumericToken t = false := by
  have hmem : c ∈ if t.head? = some '-' then t.tail else t := by
    split
    next => exact hc
    next => exact List.mem_of_mem_tail hc
  rw [Memory.msNumericToken, decide_eq_false_iff_not]
  rintro ⟨-, hall⟩
  have := List.all_eq_true.mp hall c hmem
  simp [hdigit, hdot] at this

/-- Symbols are read back. -/
theorem Reads.sym (ops : DoubleOps D) (ht : SymbolText t) (hnul : '\x00' ∉ t) :
    Reads ops (.sym t) (.sym (encode t) : Item D) := by
  refine .of_atom rfl ht.ne_nil id fun {s n calls pre post} h hpre hpost => ?_
  have h : At s n pre (t ++ post) := h
  have hends : EndsAscii (pre ++ t) ↔ EndsAscii t := endsAscii_append ht.ne_nil
  rw [h.parseAt_atom ops hpre ht.starts ht.atomChar ht.noQuote ht.noHash]
  refine ⟨fun hgood => ?_, fun hbad w k hw => ?_⟩
  · have hseen : post = [] ∨ EndsAscii (pre ++ t) := hgood.symm.imp And.left hends.mpr
    rw [h.parseAtom ops ht.ne_nil (h.atomEnd ht.atomChar hpost hseen), if_neg ht.notNumeric]
    have hname := takeWhile_encode hnul []
    rw [List.append_nil, List.takeWhile_nil, List.append_nil] at hname
    rw [hname]
    rfl
  · -- the token goes on after the symbol
    rw [not_or] at hbad
    cases post with
    | nil => exact absurd ⟨rfl, t, rfl⟩ hbad.2
    | cons c post =>
      obtain ⟨e, he, -⟩ := bind_eq_ok.mp hw
      obtain ⟨t', rest, rfl, rfl⟩ := h.atomEnd_unseen ht.atomChar (hends.not.mpr hbad.1) he
      have h' : At s n pre (t ++ c :: t' ++ rest) := by
        rw [List.append_assoc]
        exact h
      have hdelim := delimiter_cases (hpost c rfl)
      have hnumeric : Memory.msNumericToken (t ++ c :: t') = false := by
        refine msNumericToken_eq_false (c := c) ?_ ?_ ?_
        · obtain ⟨d, t, rfl⟩ := List.exists_cons_of_ne_nil ht.ne_nil
          simp
        · rcases hdelim with rfl | rfl | rfl <;> rfl
        · rcases hdelim with rfl | rfl | rfl <;> decide
      rw [h'.parseAtom ops (by simp) he, if_neg (by simp [hnumeric]), Except.ok.injEq,
        Option.some.injEq, Prod.mk.injEq] at hw
      refine ⟨w, rfl, fun heq => ?_⟩
      have hname : (encode (t ++ c :: t')).takeWhile (· ≠ 0) = encode t :=
        Item.sym.inj (hw.1.trans heq)
      rw [encode_append, takeWhile_encode hnul, encode_cons] at hname
      have hnil := List.append_right_eq_self.mp hname
      rcases hdelim with rfl | rfl | rfl <;> exact absurd hnil (by simp [String.utf8EncodeChar])

/-- Strings are read back. -/
theorem Reads.str (ops : DoubleOps D) (ht : '"' ∉ t) :
    Reads ops (.str t) (.str (encode t) : Item D) := by
  refine .of_atom rfl (by simp [canonicalString, atomString])
    (fun _ => Readable.endsAscii (.str ht) (by assumption)) fun {s n calls pre post} h hpre _ => ?_
  have htext : canonicalString (.str t) ++ post = '"' :: (t ++ '"' :: post) :=
    congrArg ('"' :: ·) (List.append_assoc t ['"'] post)
  rw [htext] at h
  have hopen : EndsAscii (pre ++ ['"']) := endsAscii_concat.mpr (by decide)
  have hends : EndsAscii (pre ++ ['"'] ++ t) ↔ EndsAscii t := by
    by_cases hnil : t = []
    · subst hnil
      simp [hopen, endsAscii_nil]
    · exact endsAscii_append hnil
  have href : stringRefAt s pre.length = .ok 34 := h.ref.trans (by rw [seenCode, if_pos hpre]; rfl)
  have hscan : scanFrom (· ≠ 34) s n (pre ++ ['"']).length =
      if EndsAscii t then .ok (pre ++ ['"'] ++ t).length
      else scanFrom (· ≠ 34) s n (pre ++ ['"'] ++ t ++ ['"']).length := by
    have hkeep : ∀ c ∈ t, decide ((c.toNat : ℤ) ≠ 34) = true := by
      intro c hc
      refine decide_eq_true (toNat_ne (d := '"') ?_)
      rintro rfl
      exact ht hc
    rw [h.step.scan_text hkeep (by decide), h.step.move.scan_step, seenCode]
    simp only [hends]
    by_cases hgood : EndsAscii t
    · rw [if_pos hgood, if_pos hgood, if_neg (by decide)]
    · rw [if_neg hgood, if_neg hgood, if_pos (by decide)]
  have hone : (pre ++ ['"']).length = pre.length + 1 := by simp
  rw [hone] at hscan
  rw [msParseAt, h.skipWs_stop hpre (by decide), ok_bind, if_neg (Nat.not_le.mpr h.lt), href,
    ok_bind, if_neg (by decide), if_pos rfl, msParseString, hscan]
  by_cases hgood : EndsAscii t
  · obtain ⟨u, hu, hbytes⟩ := h.step.sub
    rw [hone] at hu
    refine .of_eq (.inl hgood) ?_
    rw [if_pos hgood, ok_bind, if_neg (Nat.not_le.mpr h.step.move.lt), hu, ok_bind, hbytes]
    simp [canonicalString, atomString, msImproper]
    omega
  · refine ⟨fun h => ?_, fun _ w k hw => ?_⟩
    · rcases h with h | ⟨-, t', h⟩
      · exact absurd h hgood
      · cases h
    · rw [if_neg hgood] at hw
      obtain ⟨t', rest, rfl, hj⟩ := h.step.move.step.scan (· ≠ 34)
      rw [hj, ok_bind] at hw
      split at hw
      next => cases hw
      have h' : At s n (pre ++ ['"']) (t ++ '"' :: t' ++ rest) := by
        rw [List.append_assoc]
        exact h.step
      obtain ⟨u, hu, hbytes⟩ := h'.sub
      have hlen : (pre ++ ['"'] ++ t ++ ['"'] ++ t').length =
          (pre ++ ['"'] ++ (t ++ '"' :: t')).length := by simp
      rw [hone] at hu
      rw [hlen, hu, ok_bind, Except.ok.injEq, Option.some.injEq, Prod.mk.injEq] at hw
      refine ⟨w, rfl, fun heq => ?_⟩
      have htexts : u.bytes = encode t := Item.str.inj (hw.1.trans heq)
      rw [hbytes] at htexts
      have := encode_injective htexts
      simp at this

/-! ### The round trip -/

section RoundTrip

variable (formatDouble : D → List Char) (formatFloat32 : List Char)

variable {v : Item D} {d : Sexp}

theorem canonical_of_atom (hv : ∀ a b, v ≠ .pair a b) (hnull : v ≠ .null)
    (htext : cdrString d = ' ' :: '.' :: ' ' :: canonicalString d)
    (h : atomBytes formatDouble formatFloat32 v = .ok (encode (canonicalString d))) :
    sexpToCanonicalString formatDouble formatFloat32 v = .ok (encode (canonicalString d)) ∧
      sexpCdrString formatDouble formatFloat32 v = .ok (encode (cdrString d)) := by
  have hcdr : encode (cdrString d) = encode [' ', '.', ' '] ++ encode (canonicalString d) := by
    rw [htext, ← encode_append]
    rfl
  cases v with
  | null => exact absurd rfl hnull
  | pair a b => exact absurd rfl (hv a b)
  | str | sym | tagged =>
    refine ⟨h, ?_⟩
    rw [hcdr]
    exact bind_eq_ok.mpr ⟨_, h, rfl⟩

theorem Item.Represents.canonicalString (hv : v.Represents d) :
    sexpToCanonicalString formatDouble formatFloat32 v = .ok (encode (Memory.canonicalString d)) ∧
      sexpCdrString formatDouble formatFloat32 v = .ok (encode (cdrString d)) := by
  induction hv with
  | null => exact ⟨rfl, rfl⟩
  | str s =>
    refine canonical_of_atom _ _ nofun nofun rfl ?_
    rw [atomBytes, ← encode_append, ← encode_append]
    rfl
  | sym => exact canonical_of_atom _ _ nofun nofun rfl rfl
  | bool b => exact canonical_of_atom _ _ nofun nofun rfl (by cases b <;> rfl)
  | @int x z hx hz =>
    refine canonical_of_atom _ _ nofun nofun rfl ?_
    have hprint := numberToString_integer formatDouble formatFloat32 hx hz
    cases x with
    | bool => cases hz
    | int64 | bignum | rational | double | float32 =>
      exact bind_eq_ok.mpr ⟨_, hprint, rfl⟩
  | pair _ _ iha ihb =>
    refine ⟨?_, ?_⟩
    · rw [sexpToCanonicalString, iha.1, ok_bind, ihb.2, ok_bind, Memory.canonicalString]
      simp only [← encode_append]
      rfl
    · rw [sexpCdrString, iha.1, ok_bind, ihb.2, ok_bind, cdrString]
      simp only [← encode_append]
      rfl

theorem Readable.reads (ops : DoubleOps D) (hd : Readable d) (hv : v.Represents d) :
    Reads ops d v := by
  induction hv with
  | null => exact .null ops
  | bool b => exact .bool ops b
  | int hx hz => exact .int ops hx hz
  | str s =>
    cases hd with
    | str h => exact .str ops h
  | sym hnul =>
    cases hd with
    | sym h => exact .sym ops h hnul
  | pair _ _ iha ihb =>
    cases hd with
    | pair hcar hcdr => exact .pair hcar.starts (Readable.endsAscii hcar) (iha hcar) (ihb hcdr)

variable {formatDouble formatFloat32}

theorem msParse_represents (ops : DoubleOps D) (hd : Readable d) (hv : v.Represents d)
    (hs : sexpToCanonicalString formatDouble formatFloat32 v = .ok s.bytes) :
    (((∃ t, d = .sym t) ∨ TextsEndAscii d) → msParse ops s = .ok v) ∧
      (¬ ((∃ t, d = .sym t) ∨ TextsEndAscii d) → ∀ w, msParse ops s = .ok w → w ≠ v) := by
  rw [(hv.canonicalString formatDouble formatFloat32).1, Except.ok.injEq] at hs
  have h : At s (canonicalString d).length [] (canonicalString d ++ []) :=
    ⟨by rw [← hs]; simp, by simp⟩
  have hread := (Readable.reads ops hd hv).datum h endsAscii_nil nofun
    (by omega : _ < 2 * (canonicalString d).length + 1)
  rw [List.nil_append, List.length_nil] at hread
  rw [msParse, h.strlen]
  refine ⟨fun hgood => ?_, fun hbad w hw => ?_⟩
  · rw [hread.right (hgood.symm.imp_right fun h => ⟨rfl, h⟩), ok_bind]
    exact congrArg Except.ok (if_pos rfl)
  · have hfalse : .tagged (.bool false) ≠ v := by
      rintro rfl
      cases hv with
      | int hx hz => cases hz
      | bool => exact hbad (.inr trivial)
    obtain ⟨r, hr, hw⟩ := bind_eq_ok.mp hw
    cases r with
    | none =>
      obtain rfl := Except.ok.inj hw
      exact hfalse
    | some r =>
      obtain ⟨x, hx, hne⟩ := hread.wrong
        (fun h => hbad (h.symm.imp_left And.right)) r.1 r.2 hr
      obtain rfl := Except.ok.inj hw
      split
      next => exact hx ▸ hne
      next => exact hfalse

/-- **Exactly when a datum is read back**: it is a symbol, or all of its strings and symbols are
empty or end with an ASCII character. -/
theorem msParse_canonicalString_iff (ops : DoubleOps D) {d : Sexp} (hd : Readable d) {v : Item D}
    (hv : v.Represents d) (hs : sexpToCanonicalString formatDouble formatFloat32 v = .ok s.bytes) :
    msParse ops s = .ok v ↔ (∃ t, d = .sym t) ∨ TextsEndAscii d := by
  obtain ⟨hright, hwrong⟩ := msParse_represents ops hd hv hs
  exact ⟨fun h => by_contra fun hbad => hwrong hbad v h rfl, hright⟩

end RoundTrip

/-- A list of a symbol and a string with an accent in its middle. -/
theorem msParse_canonicalString_iff_middle :
    ∃ s : StringObject, s.bytes = encode "(a . \"béb\")".toList ∧
      msParse DoubleOps.unit s = .ok (.pair (.sym (encode ['a'])) (.str (encode "béb".toList))) :=
  ⟨⟨encode "(a . \"béb\")".toList, by decide⟩, rfl,
    (msParse_canonicalString_iff DoubleOps.unit (.pair (.sym (by decide)) (.str (by decide)))
      (.pair (.sym (by decide)) (.str "béb".toList))
      (show sexpToCanonicalString (fun _ => []) [] _ = .ok _ from rfl)).mpr
      (.inr ⟨show EndsAscii ['a'] by decide, show EndsAscii "béb".toList by decide⟩)⟩

/-- The closing quote of a string that ends with an accent is not seen. -/
theorem msParse_accent_last :
    Readable (.str ['é']) ∧ (Item.str (encode ['é']) : Item Unit).Represents (.str ['é']) ∧
      ∃ s : StringObject,
        sexpToCanonicalString (fun _ : Unit => []) [] (.str (encode ['é'])) = .ok s.bytes ∧
        msParse DoubleOps.unit s = .ok (.tagged (.bool false)) :=
  ⟨.str (by decide), .str _, ⟨encode "\"é\"".toList, by decide⟩, rfl, rfl⟩

end Eshkol.Memory.Row
