import Eshkol.Vm.ReadToken

/-!
# Reading What the VM Wrote

`read` on the text of `write` in the bytecode VM, for data of booleans, characters, exact numbers,
strings, symbols, lists and vectors. The text of a datum that holds an unreadable leaf may be read
in many ways, or not at all; what matters is that the first such leaf is read as something else.
-/

namespace Eshkol.Vm.Reader

open Machine

variable {D : Type} (readDouble : List Char → Option D) (eqFloat : D → D → Bool)

/-! ### Data on their own -/

/-- What becomes of the text of a datum, within so many levels of nesting: if all is good it is
read back, and else something else is read, if anything. -/
structure Outcome (room : ℕ) (text : List UInt8) (x : Datum D) (good : Prop) : Prop where
  start : ∃ first more, text = first :: more ∧ isSpaceByte first = false ∧ first ≠ byte ';' ∧
    first ≠ byte ')' ∧ (first = byte '.' → ∀ fp, vmReaderDelimiter (more ++ fp) = false)
  ne_eof : x ≠ .eof
  read : good → ∀ fp, vmReaderDelimiter fp = true →
    vmReaderDatum readDouble room (text ++ fp) = .ok (x, fp)
  misread : ¬ good → ∀ fp, vmReaderDelimiter fp = true → ∀ y rest,
    vmReaderDatum readDouble room (text ++ fp) = .ok (y, rest) → vmDeepEqual eqFloat x y = false

theorem vmReaderSkipSpace_first {first : UInt8} (hspace : isSpaceByte first = false)
    (hcomment : first ≠ byte ';') (fp : Port) :
    vmReaderSkipSpace (first :: fp) = first :: fp := by
  rw [vmReaderSkipSpace, hspace, if_neg Bool.false_ne_true, if_neg hcomment]

theorem vmReaderSkipSpace_space (fp : Port) :
    vmReaderSkipSpace (byte ' ' :: fp) = vmReaderSkipSpace fp := by
  rw [vmReaderSkipSpace, if_pos (by decide)]

/-- The bytes that start a token. -/
def StartsToken (c : UInt8) : Prop := isDelimiter c = false ∧ c ≠ byte '|'

theorem StartsToken.isSpaceByte {c : UInt8} (h : StartsToken c) : isSpaceByte c = false := by
  have hd := of_decide_eq_false h.1
  exact Bool.eq_false_iff.mpr fun hs => hd (.inl hs)

theorem StartsToken.ne {c d : UInt8} (h : StartsToken c) (hd : isDelimiter d = true) : c ≠ d := by
  rintro rfl
  exact absurd h.1 (by rw [hd]; simp)

theorem vmReaderDatum_token (room : ℕ) {c : UInt8} (hc : StartsToken c) {rest : Port}
    (hvector : c = byte '#' → rest.head? ≠ some (byte '(')) :
    vmReaderDatum readDouble (room + 1) (c :: rest) = vmReaderToken readDouble c rest := by
  rw [vmReaderDatum, vmReaderSkipSpace_first hc.isSpaceByte (hc.ne rfl)]
  simp only
  rw [if_neg (hc.ne rfl), if_neg (hc.ne rfl), if_neg (hc.ne rfl), if_neg hc.2,
    if_neg fun h => hvector h.1 h.2, if_neg (hc.ne rfl), if_neg (hc.ne rfl), if_neg (hc.ne rfl)]

variable {readDouble eqFloat}

theorem outcome_token (room : ℕ) {c : UInt8} {more : List UInt8} {x : Datum D}
    (hc : StartsToken c) (hdot : c = byte '.' → ∀ fp, vmReaderDelimiter (more ++ fp) = false)
    (hvector : c = byte '#' → ∀ fp, (more ++ fp).head? ≠ some (byte '(')) (hx : x ≠ .eof)
    (hread : ∀ fp, vmReaderDelimiter fp = true →
      vmReaderToken readDouble c (more ++ fp) = .ok (x, fp)) :
    Outcome readDouble eqFloat (room + 1) (c :: more) x True := by
  refine ⟨⟨c, more, rfl, hc.isSpaceByte, hc.ne rfl, hc.ne rfl, hdot⟩, hx, fun _ fp hfp => ?_,
    fun h => absurd trivial h⟩
  rw [List.cons_append, vmReaderDatum_token readDouble room hc fun h => hvector h fp, hread fp hfp]

/-! ### Lists -/

/-- What becomes of the text of what follows an element of a list, with what it means that
something else is read. -/
structure ListOutcome (readDouble : List Char → Option D) (room : ℕ) (text : List UInt8)
    (x : Datum D) (good : Prop) (Differs : Datum D → Prop) : Prop where
  delimited : ∀ fp, vmReaderDelimiter (text ++ byte ')' :: fp) = true
  read : good → ∀ fp,
    vmReaderList readDouble (vmReaderDatum readDouble room) true (text ++ byte ')' :: fp) =
      .ok (x, fp)
  misread : ¬ good → ∀ fp y rest,
    vmReaderList readDouble (vmReaderDatum readDouble room) true (text ++ byte ')' :: fp) =
      .ok (y, rest) → Differs y

theorem rationalDatum_ne_eof {r : Exec Empty (Option VmRational)} {x : Datum D}
    (h : rationalDatum r = .ok x) : x ≠ .eof := by
  unfold rationalDatum at h
  split at h
  · obtain rfl := Except.ok.inj h
    split <;> simp
  · simp [fail] at h
  · simp at h
  · simp at h

theorem numberOrSymbol_ne_eof {token : List UInt8} {x : Datum D}
    (h : numberOrSymbol readDouble token = .ok x) : x ≠ .eof := by
  simp only [numberOrSymbol] at h
  split at h
  · exact Except.ok.inj h ▸ by simp
  · split at h
    · exact Except.ok.inj h ▸ by simp
    · split at h
      · exact rationalDatum_ne_eof h
      · split at h
        · obtain rfl := Except.ok.inj h
          cases readDouble (cString token) <;> simp
        · exact Except.ok.inj h ▸ by simp

theorem vmReaderToken_requireDatum (c : UInt8) (port : Port) :
    vmReaderToken readDouble c port >>= requireDatum = vmReaderToken readDouble c port := by
  cases h : vmReaderToken readDouble c port with
  | error e => rfl
  | ok out =>
    obtain ⟨x, rest⟩ := out
    have hx : x ≠ .eof := by
      simp only [vmReaderToken] at h
      split at h
      · simp [fail] at h
      · obtain ⟨datum, hdatum, hout⟩ := bind_eq_ok.mp h
        obtain ⟨rfl, -⟩ := Prod.mk.inj (Except.ok.inj hout)
        simp only [tokenDatum] at hdatum
        split_ifs at hdatum
        · exact Except.ok.inj hdatum ▸ by simp
        · exact Except.ok.inj hdatum ▸ by simp
        · exact Except.ok.inj hdatum ▸ by simp
        · exact numberOrSymbol_ne_eof hdatum
    cases x <;> first | rfl | exact absurd rfl hx

theorem vmReaderList_item {room : ℕ} {nonempty : Bool} {text port fp : List UInt8} {x : Datum D}
    {good : Prop} (h : Outcome readDouble eqFloat (room + 1) text x good)
    (hskip : vmReaderSkipSpace port = text ++ fp) :
    vmReaderList readDouble (vmReaderDatum readDouble (room + 1)) nonempty port =
      (vmReaderDatum readDouble (room + 1) (text ++ fp) >>= requireDatum) >>= fun out =>
        if out.2.length < port.length then
          vmReaderList readDouble (vmReaderDatum readDouble (room + 1)) true out.2 >>= fun cdr =>
            .ok (.pair out.1 cdr.1, cdr.2)
        else .error .diverges := by
  obtain ⟨first, more, rfl, hspace, hcomment, hclose, hdot⟩ := h.start
  rw [List.cons_append] at hskip
  have hnotDot : ¬ (first = byte '.' ∧ vmReaderDelimiter (more ++ fp) = true) := by
    rintro ⟨hfirst, hdelimiter⟩
    rw [hdot hfirst fp] at hdelimiter
    exact Bool.false_ne_true hdelimiter
  rw [vmReaderList, hskip]
  simp only [if_neg hclose, if_neg hnotDot, List.cons_append]
  split
  -- a dot that starts an element is passed on to `vm_reader_token`, as `vm_reader_datum` does
  next hfirst =>
      rw [hfirst, vmReaderDatum_token readDouble room ⟨rfl, by decide⟩ fun h => absurd h (by decide),
        vmReaderToken_requireDatum]
  next => rfl

theorem requireDatum_of_ne {x : Datum D} (hx : x ≠ .eof) (fp : Port) :
    requireDatum (x, fp) = .ok (x, fp) := by
  cases x <;> first | rfl | exact absurd rfl hx

theorem eq_of_requireDatum {out out' : Datum D × Port} (h : requireDatum out = .ok out') :
    out' = out := by
  unfold requireDatum at h
  split at h
  · simp [fail] at h
  · exact (Except.ok.inj h).symm

section Item

variable {room : ℕ} {head tail : List UInt8} {x d : Datum D} {good good' : Prop}
  {Differs : Datum D → Prop} (hhead : Outcome readDouble eqFloat (room + 1) head x good)
  (htail : ListOutcome readDouble (room + 1) tail d good' Differs)

include hhead htail

theorem vmReaderList_read {nonempty : Bool} {port fp : Port} (hgood : good) (hgood' : good')
    (hskip : vmReaderSkipSpace port = head ++ (tail ++ byte ')' :: fp))
    (hlen : (tail ++ byte ')' :: fp).length < port.length) :
    vmReaderList readDouble (vmReaderDatum readDouble (room + 1)) nonempty port =
      .ok (.pair x d, fp) := by
  rw [vmReaderList_item hhead hskip, hhead.read hgood _ (htail.delimited fp), ok_bind,
    requireDatum_of_ne hhead.ne_eof, ok_bind]
  simp only [if_pos hlen, htail.read hgood', ok_bind]

theorem vmReaderList_misread {nonempty : Bool} {port fp rest : Port} {y : Datum D}
    (hbad : ¬ (good ∧ good')) (hskip : vmReaderSkipSpace port = head ++ (tail ++ byte ')' :: fp))
    (hy : vmReaderList readDouble (vmReaderDatum readDouble (room + 1)) nonempty port =
      .ok (y, rest)) :
    ∃ car cdr, y = .pair car cdr ∧ (vmDeepEqual eqFloat x car = false ∨ car = x ∧ Differs cdr) := by
  rw [vmReaderList_item hhead hskip] at hy
  obtain ⟨⟨car, port₁⟩, hcar, hy⟩ := bind_eq_ok.mp hy
  obtain ⟨out, hout, hrequire⟩ := bind_eq_ok.mp hcar
  obtain rfl := eq_of_requireDatum hrequire
  split at hy
  next =>
      obtain ⟨⟨cdr, port₂⟩, hcdr, hy⟩ := bind_eq_ok.mp hy
      obtain ⟨rfl, -⟩ := Prod.mk.inj (Except.ok.inj hy)
      refine ⟨car, cdr, rfl, ?_⟩
      by_cases hgood : good
      · rw [hhead.read hgood _ (htail.delimited fp)] at hout
        obtain ⟨rfl, rfl⟩ := Prod.mk.inj (Except.ok.inj hout)
        exact .inr ⟨rfl, htail.misread (fun h => hbad ⟨hgood, h⟩) fp cdr port₂ hcdr⟩
      · exact .inl (hhead.misread hgood _ (htail.delimited fp) car port₁ hout)
  next => simp at hy

theorem listOutcome_item {Differs' : Datum D → Prop}
    (hdiffers : ∀ car cdr, (vmDeepEqual eqFloat x car = false ∨ car = x ∧ Differs cdr) →
      Differs' (.pair car cdr)) :
    ListOutcome readDouble (room + 1) (byte ' ' :: (head ++ tail)) (.pair x d) (good ∧ good')
      Differs' := by
  obtain ⟨first, more, hfirst, hspace, hcomment, -⟩ := hhead.start
  have hskip (fp : Port) : vmReaderSkipSpace (byte ' ' :: (head ++ tail) ++ byte ')' :: fp) =
      head ++ (tail ++ byte ')' :: fp) := by
    rw [List.cons_append, vmReaderSkipSpace_space, List.append_assoc, hfirst, List.cons_append,
      vmReaderSkipSpace_first hspace hcomment]
  refine ⟨fun fp => rfl, fun hgood fp => ?_, fun hbad fp y rest hy => ?_⟩
  · refine vmReaderList_read hhead htail hgood.1 hgood.2 (hskip fp) ?_
    simp only [List.length_cons, List.length_append]
    omega
  · obtain ⟨car, cdr, rfl, h⟩ := vmReaderList_misread hhead htail hbad (hskip fp) hy
    exact hdiffers car cdr h

end Item

theorem vmReaderList_close (element : Port → Read (Datum D × Port)) (nonempty : Bool) (fp : Port) :
    vmReaderList readDouble element nonempty (byte ')' :: fp) = .ok (.nil, fp) := by
  rw [vmReaderList, vmReaderSkipSpace_first rfl (by decide)]
  simp only [if_pos]

theorem listOutcome_nil (room : ℕ) (Differs : Datum D → Prop) :
    ListOutcome readDouble room [] .nil True Differs :=
  ⟨fun _ => rfl, fun _ fp => vmReaderList_close _ true fp, fun h => absurd trivial h⟩

/-- What is read after the datum behind a dot. -/
def closeDotted (out : Datum D × Port) : Read (Datum D × Port) :=
  match vmReaderSkipSpace out.2 with
  | d :: port₂ => if d = byte ')' then .ok (out.1, port₂) else fail
  | [] => fail

theorem closeDotted_close (x : Datum D) (fp : Port) :
    closeDotted (x, byte ')' :: fp) = .ok (x, fp) := by
  rw [closeDotted, vmReaderSkipSpace_first rfl (by decide)]
  exact if_pos rfl

theorem eq_of_closeDotted {out y : Datum D × Port} (h : closeDotted out = .ok y) : y.1 = out.1 := by
  rw [closeDotted] at h
  split at h
  next =>
    split at h
    next => exact (congrArg Prod.fst (Except.ok.inj h)).symm
    next => simp [fail] at h
  next => simp [fail] at h

/-- What it makes of the end of a list after a dot. -/
theorem listOutcome_dot {room : ℕ} {text : List UInt8} {x : Datum D} {good : Prop}
    (h : Outcome readDouble eqFloat (room + 1) text x good) :
    ListOutcome readDouble (room + 1) (asciiBytes [' ', '.', ' '] ++ text) x good
      fun y => vmDeepEqual eqFloat x y = false := by
  have hdelimited (fp : Port) : vmReaderDelimiter (byte ')' :: fp) = true := rfl
  have hlist (fp : Port) : vmReaderList readDouble (vmReaderDatum readDouble (room + 1)) true
      (asciiBytes [' ', '.', ' '] ++ text ++ byte ')' :: fp) =
        (vmReaderDatum readDouble (room + 1) (text ++ byte ')' :: fp) >>= requireDatum) >>=
          closeDotted := by
    have hskip : vmReaderSkipSpace (asciiBytes [' ', '.', ' '] ++ text ++ byte ')' :: fp) =
        byte '.' :: byte ' ' :: (text ++ byte ')' :: fp) := rfl
    have hspace : vmReaderDatum readDouble (room + 1) (byte ' ' :: (text ++ byte ')' :: fp)) =
        vmReaderDatum readDouble (room + 1) (text ++ byte ')' :: fp) := by
      rw [vmReaderDatum, vmReaderSkipSpace_space, vmReaderDatum]
    have hdelimiter : vmReaderDelimiter (byte ' ' :: (text ++ byte ')' :: fp)) = true := rfl
    rw [vmReaderList, hskip]
    simp only [if_neg (show byte '.' ≠ byte ')' by decide), hdelimiter, and_self, if_true, hspace]
    rfl
  refine ⟨fun fp => rfl, fun hgood fp => ?_, fun hbad fp y rest hy => ?_⟩
  · rw [hlist, h.read hgood _ (hdelimited fp), ok_bind, requireDatum_of_ne h.ne_eof, ok_bind,
      closeDotted_close]
  · rw [hlist] at hy
    obtain ⟨⟨cdr, port₁⟩, hcdr, hy⟩ := bind_eq_ok.mp hy
    obtain ⟨out, hout, hrequire⟩ := bind_eq_ok.mp hcdr
    obtain rfl := eq_of_requireDatum hrequire
    have hcdr : y = cdr := eq_of_closeDotted hy
    exact hcdr ▸ h.misread hbad _ (hdelimited fp) cdr port₁ hout

/-! ### Lists and vectors -/

theorem outcome_pair {room : ℕ} {head tail : List UInt8} {x d : Datum D} {good good' : Prop}
    (hhead : Outcome readDouble eqFloat (room + 1) head x good)
    (htail : ListOutcome readDouble (room + 1) tail d good'
      fun y => vmDeepEqual eqFloat d y = false) :
    Outcome readDouble eqFloat (room + 2) (byte '(' :: (head ++ tail ++ [byte ')'])) (.pair x d)
      (good ∧ good') := by
  obtain ⟨first, more, hfirst, hspace, hcomment, -⟩ := hhead.start
  have hskip (fp : Port) : vmReaderSkipSpace (head ++ tail ++ [byte ')'] ++ fp) =
      head ++ (tail ++ byte ')' :: fp) := by
    rw [hfirst, List.cons_append, List.cons_append, List.cons_append,
      vmReaderSkipSpace_first hspace hcomment]
    simp
  have hdatum (fp : Port) :
      vmReaderDatum readDouble (room + 2) (byte '(' :: (head ++ tail ++ [byte ')']) ++ fp) =
        vmReaderList readDouble (vmReaderDatum readDouble (room + 1)) false
          (head ++ tail ++ [byte ')'] ++ fp) := by
    rw [List.cons_append, vmReaderDatum, vmReaderSkipSpace_first rfl (by decide)]
    simp only [if_pos]
  refine ⟨⟨byte '(', _, rfl, rfl, by decide, by decide, fun h => absurd h (by decide)⟩, by simp,
    fun hgood fp _ => ?_, fun hbad fp _ y rest hy => ?_⟩
  · rw [hdatum]
    refine vmReaderList_read hhead htail hgood.1 hgood.2 (hskip fp) ?_
    rw [hfirst]
    simp only [List.length_cons, List.length_append, List.length_nil]
    omega
  · rw [hdatum] at hy
    obtain ⟨car, cdr, rfl, h⟩ := vmReaderList_misread hhead htail hbad (hskip fp) hy
    rcases h with h | ⟨-, h⟩
    · rw [vmDeepEqual, h, Bool.false_and]
    · rw [vmDeepEqual, h, Bool.and_false]

/-- The list of given elements. -/
def listDatum : List (Datum D) → Datum D
  | [] => .nil
  | e :: es => .pair e (listDatum es)

theorem elements_listDatum (es : List (Datum D)) : (listDatum es).elements = es := by
  induction es with
  | nil => rfl
  | cons e es ih => rw [listDatum, Datum.elements, ih]

/-- What it makes of a vector. -/
theorem outcome_vector {room : ℕ} {item items : List UInt8} {e : Datum D} {es : List (Datum D)}
    {good good' : Prop} (hitem : Outcome readDouble eqFloat (room + 1) item e good)
    (hitems : ListOutcome readDouble (room + 1) items (listDatum es) good'
      fun y => vmDeepEqualElements eqFloat es y.elements = false) :
    Outcome readDouble eqFloat (room + 2)
      (byte '#' :: byte '(' :: (item ++ items ++ [byte ')'])) (.vector (e :: es))
      (good ∧ good') := by
  obtain ⟨first, more, hfirst, hspace, hcomment, -⟩ := hitem.start
  have hskip (fp : Port) : vmReaderSkipSpace (item ++ items ++ [byte ')'] ++ fp) =
      item ++ (items ++ byte ')' :: fp) := by
    rw [hfirst, List.cons_append, List.cons_append, List.cons_append,
      vmReaderSkipSpace_first hspace hcomment]
    simp
  have hdatum (fp : Port) : vmReaderDatum readDouble (room + 2)
      (byte '#' :: byte '(' :: (item ++ items ++ [byte ')']) ++ fp) =
        vmReaderVector readDouble (vmReaderDatum readDouble (room + 1))
          (item ++ items ++ [byte ')'] ++ fp) := by
    rw [List.cons_append, List.cons_append, vmReaderDatum, vmReaderSkipSpace_first rfl (by decide)]
    simp only [if_neg (show byte '#' ≠ byte '(' by decide),
      if_neg (show byte '#' ≠ byte ')' by decide), if_neg (show byte '#' ≠ byte '"' by decide),
      if_neg (show byte '#' ≠ byte '|' by decide), List.head?_cons, and_self, if_true, List.tail_cons]
  refine ⟨⟨byte '#', _, rfl, rfl, by decide, by decide, fun h => absurd h (by decide)⟩, by simp,
    fun hgood fp _ => ?_, fun hbad fp _ y rest hy => ?_⟩
  · have hlen : (items ++ byte ')' :: fp).length < (item ++ items ++ [byte ')'] ++ fp).length := by
      rw [hfirst]
      simp only [List.length_cons, List.length_append, List.length_nil]
      omega
    rw [hdatum, vmReaderVector, vmReaderList_read hitem hitems hgood.1 hgood.2 (hskip fp) hlen,
      ok_bind]
    simp only [Datum.elements, elements_listDatum]
  · rw [hdatum, vmReaderVector] at hy
    obtain ⟨⟨list, port₁⟩, hlist, hy⟩ := bind_eq_ok.mp hy
    obtain ⟨rfl, -⟩ := Prod.mk.inj (Except.ok.inj hy)
    obtain ⟨car, cdr, rfl, h⟩ := vmReaderList_misread hitem hitems hbad (hskip fp) hlist
    rw [vmDeepEqual, Datum.elements, vmDeepEqualElements]
    rcases h with h | ⟨-, h⟩
    · rw [h, Bool.false_and]
    · rw [h, Bool.and_false]

/-! ### Leaves -/

theorem outcome_nil (room : ℕ) :
    Outcome readDouble eqFloat (room + 1) (asciiBytes ['(', ')']) .nil True := by
  refine ⟨⟨byte '(', [byte ')'], rfl, rfl, by decide, by decide, fun h => absurd h (by decide)⟩,
    by simp, fun _ fp _ => ?_, fun h => absurd trivial h⟩
  change vmReaderDatum readDouble (room + 1) (byte '(' :: byte ')' :: fp) = _
  rw [vmReaderDatum, vmReaderSkipSpace_first rfl (by decide)]
  simp only [if_pos, vmReaderList_close]

theorem outcome_emptyVector (room : ℕ) :
    Outcome readDouble eqFloat (room + 1) (asciiBytes ['#', '(', ')']) (.vector []) True := by
  refine ⟨⟨byte '#', _, rfl, rfl, by decide, by decide, fun h => absurd h (by decide)⟩,
    by simp, fun _ fp _ => ?_, fun h => absurd trivial h⟩
  change vmReaderDatum readDouble (room + 1) (byte '#' :: byte '(' :: byte ')' :: fp) = _
  rw [vmReaderDatum, vmReaderSkipSpace_first rfl (by decide)]
  simp only [if_neg (show byte '#' ≠ byte '(' by decide),
    if_neg (show byte '#' ≠ byte ')' by decide), if_neg (show byte '#' ≠ byte '"' by decide),
    if_neg (show byte '#' ≠ byte '|' by decide), List.head?_cons, and_self, if_true, List.tail_cons,
    vmReaderVector, vmReaderList_close, ok_bind, Datum.elements]

theorem outcome_bool (room : ℕ) (b : Bool) :
    Outcome readDouble eqFloat (room + 1) (asciiBytes (if b then ['#', 't'] else ['#', 'f']))
      (.bool b) True := by
  have hrun (c : Char) (hc : isDelimiter (byte c) = false) {fp : Port}
      (hfp : vmReaderDelimiter fp = true) :
      vmReaderToken readDouble (byte '#') ([byte c] ++ fp) =
        tokenDatum readDouble [byte '#', byte c] >>= fun datum => .ok (datum, fp) :=
    vmReaderToken_run readDouble (byte '#') (by simpa using hc) hfp (by simp [vmReaderMaxToken])
  cases b with
  | true =>
    refine outcome_token room ⟨rfl, by decide⟩ (fun h => absurd h (by decide))
      (fun _ fp h => absurd (Option.some.inj h) (by decide)) (by simp) fun fp hfp => ?_
    exact hrun 't' rfl hfp
  | false =>
    refine outcome_token room ⟨rfl, by decide⟩ (fun h => absurd h (by decide))
      (fun _ fp h => absurd (Option.some.inj h) (by decide)) (by simp) fun fp hfp => ?_
    exact hrun 'f' rfl hfp

theorem outcome_char (room : ℕ) {c : ℕ} (hc : IsScalar c) :
    Outcome readDouble eqFloat (room + 1) (charText c) (.char c) (ReadableChar c) := by
  obtain ⟨more, htext, hread⟩ := vmReaderToken_charText readDouble hc
  have hdatum (fp : Port) : vmReaderDatum readDouble (room + 1) (charText c ++ fp) =
      vmReaderToken readDouble (byte '#') (byte '\\' :: (more ++ fp)) := by
    rw [htext]
    exact vmReaderDatum_token readDouble room ⟨rfl, by decide⟩ fun _ h => by simp [byte] at h
  refine ⟨⟨byte '#', _, htext, rfl, by decide, by decide, fun h => absurd h (by decide)⟩, by simp,
    fun hgood fp hfp => ?_, fun hbad fp hfp y rest hy => ?_⟩
  · obtain ⟨cp, rest, hout, hcp⟩ := hread fp hfp
    rw [if_pos hgood] at hcp
    rw [hdatum, hout, hcp.1, hcp.2]
  · obtain ⟨cp, rest', hout, hcp⟩ := hread fp hfp
    rw [if_neg hbad] at hcp
    rw [hdatum, hout] at hy
    obtain ⟨rfl, -⟩ := Prod.mk.inj (Except.ok.inj hy)
    exact decide_eq_false fun h => hcp h.symm

theorem outcome_string (room : ℕ) {bytes : List UInt8} (h : bytes.length ≤ vmReaderMaxToken) :
    Outcome readDouble eqFloat (room + 1) (stringText bytes) (.string bytes) True := by
  refine ⟨⟨byte '"', _, rfl, rfl, by decide, by decide, fun h => absurd h (by decide)⟩, by simp,
    fun _ fp _ => ?_, fun h => absurd trivial h⟩
  rw [stringText, List.cons_append, vmReaderDatum, vmReaderSkipSpace_first rfl (by decide)]
  simp only [if_neg (show byte '"' ≠ byte '(' by decide),
    if_neg (show byte '"' ≠ byte ')' by decide), if_true]
  rw [List.append_assoc, List.singleton_append, vmReaderString_stringText (by simpa using h),
    List.nil_append]

theorem outcome_symbol (room : ℕ) {name : List UInt8} (h : name.length ≤ vmReaderMaxToken) :
    Outcome readDouble eqFloat (room + 1) (symbolText name) (.symbol name) True := by
  rw [symbolText]
  split
  next =>
      refine ⟨⟨byte '|', _, rfl, rfl, by decide, by decide, fun h => absurd h (by decide)⟩, by simp,
        fun _ fp _ => ?_, fun h => absurd trivial h⟩
      rw [List.cons_append, vmReaderDatum, vmReaderSkipSpace_first rfl (by decide)]
      simp only [if_neg (show byte '|' ≠ byte '(' by decide),
        if_neg (show byte '|' ≠ byte ')' by decide), if_neg (show byte '|' ≠ byte '"' by decide),
        if_true]
      rw [List.append_assoc, List.singleton_append,
        vmReaderVerticalLineSymbol_body (by simpa using h), List.nil_append]
  next hbars =>
      have hbare := bareName_of_needsBars (Bool.eq_false_iff.mpr hbars)
      obtain ⟨c, cs, rfl, -⟩ := hbare.head
      have hbytes := hbare.toNat_of_mem List.mem_cons_self
      refine outcome_token room ⟨hbare.isDelimiter_of_mem List.mem_cons_self, ?_⟩ (fun hdot fp => ?_)
        (fun hhash => ?_) (by simp) fun fp hfp => vmReaderToken_bare readDouble hbare h hfp
      · rintro rfl
        exact hbytes.2.2.2.2.2.2.2 rfl
      · obtain ⟨d, ds, rfl⟩ :=
          List.exists_cons_of_ne_nil (hbare.dot c cs rfl (congrArg UInt8.toNat hdot))
        simpa [vmReaderDelimiter] using
          hbare.isDelimiter_of_mem (List.mem_cons_of_mem c List.mem_cons_self)
      · exact absurd (congrArg UInt8.toNat hhash) hbytes.2.2.1

theorem toNat_symbolElementLen (c : UInt8) :
    (symbolElementLen c).toNat = (symbolElement c).length := by
  rw [symbolElementLen, symbolElement]
  split
  next => rfl
  split
  next => cases eshkolSymbolMnemonicEscape c <;> rfl
  next => rfl

theorem length_symbolElement_le (c : UInt8) : (symbolElement c).length ≤ 5 := by
  rw [symbolElement]
  split
  next => exact Nat.le_of_ble_eq_true rfl
  split
  next => cases eshkolSymbolMnemonicEscape c <;> exact Nat.le_of_ble_eq_true rfl
  next => exact Nat.le_of_ble_eq_true rfl

theorem toNat_foldl_symbolElementLen {name : List UInt8} {total : UInt64}
    (h : total.toNat + 5 * name.length < 2 ^ 64) :
    (name.foldl (fun total c => total + symbolElementLen c) total).toNat =
      total.toNat + (eshkolSymbolEscapeBody name).length := by
  induction name generalizing total with
  | nil => rfl
  | cons c cs ih =>
    have hc := length_symbolElement_le c
    rw [List.length_cons] at h
    have hadd : (total + symbolElementLen c).toNat = total.toNat + (symbolElement c).length := by
      rw [UInt64.toNat_add, toNat_symbolElementLen, Nat.mod_eq_of_lt (by omega)]
    rw [List.foldl_cons, ih (by omega), hadd, eshkolSymbolEscapeBody, eshkolSymbolEscapeBody,
      List.flatMap_cons, List.length_append, Nat.add_assoc]

/-- **A symbol is read back.** Whatever its name, the spelling that is chosen for a symbol is
read as one symbol of that name, up to the delimiter behind it; and the bytes of an escaped
name are counted right. -/
theorem vmReaderDatum_symbolText (readDouble : List Char → Option D) (room : ℕ)
    {name : List UInt8} (h : name.length ≤ vmReaderMaxToken) :
    (∀ fp, vmReaderDelimiter fp = true →
      vmReaderDatum readDouble (room + 1) (symbolText name ++ fp) = .ok (.symbol name, fp)) ∧
      (eshkolSymbolEscapedBodyLen name).toNat = (eshkolSymbolEscapeBody name).length := by
  constructor
  · intro fp hfp
    exact (@outcome_symbol D readDouble (fun _ _ => true) room name h).read trivial fp hfp
  · rw [vmReaderMaxToken] at h
    have hsum := @toNat_foldl_symbolElementLen name 0 (by
      change 0 + _ < _
      omega)
    exact hsum.trans (Nat.zero_add _)

/-- The names `1`, `a|b` and the empty name are written with vertical lines. -/
theorem vmReaderDatum_symbolText_bars :
    ([49] : List UInt8).length ≤ vmReaderMaxToken ∧
      symbolText [49] = [124, 49, 124] ∧ symbolText [97, 124, 98] = [124, 97, 92, 124, 98, 124] ∧
      symbolText [] = [124, 124] ∧
      vmReaderDatum (fun _ => none) 1 (symbolText [49] ++ [32, 50]) =
        .ok ((.symbol [49] : Datum Unit), [32, 50]) ∧
      (eshkolSymbolEscapedBodyLen [97, 124, 98]).toNat =
        (eshkolSymbolEscapeBody [97, 124, 98]).length :=
  ⟨by decide, by decide, by decide, by decide,
    (vmReaderDatum_symbolText (fun _ => none) 0 (by decide)).1 [32, 50] rfl,
    (vmReaderDatum_symbolText (D := Unit) (fun _ => none) 0 (by decide)).2⟩

theorem vmReaderDatum_number (room : ℕ) {text : List Char} (hne : text ≠ [])
    (htext : ∀ d ∈ text, Eshkol.Reader.IsNumberChar d) (hlen : text.length ≤ vmReaderMaxToken) :
    (∃ first more, asciiBytes text = first :: more ∧ StartsToken first ∧ first ≠ byte '.' ∧
      first ≠ byte '#') ∧
    ∀ fp, vmReaderDelimiter fp = true →
      vmReaderDatum readDouble (room + 1) (asciiBytes text ++ fp) =
        numberOrSymbol readDouble (asciiBytes text) >>= fun datum => .ok (datum, fp) := by
  obtain ⟨c, cs, rfl⟩ := List.exists_cons_of_ne_nil hne
  have hc := htext c List.mem_cons_self
  have hrange := hc.toNat
  have hstart : StartsToken (byte c) := by
    refine ⟨?_, hc.byte_ne (by decide) (by decide)⟩
    rw [Bool.eq_false_iff, ne_eq, isDelimiter_iff, toNat_byte hc.isAscii]
    omega
  have hhash : byte c ≠ byte '#' := hc.byte_ne (by decide) (by decide)
  refine ⟨⟨byte c, asciiBytes cs, rfl, hstart, hc.byte_ne_dot, hhash⟩, fun fp hfp => ?_⟩
  change vmReaderDatum readDouble (room + 1) (byte c :: (asciiBytes cs ++ fp)) = _
  rw [vmReaderDatum_token readDouble room hstart fun h => absurd h hhash,
    vmReaderToken_number readDouble htext hlen hfp]

theorem outcome_number (room : ℕ) {text : List Char} {x : Datum D} (hne : text ≠ [])
    (htext : ∀ d ∈ text, Eshkol.Reader.IsNumberChar d) (hlen : text.length ≤ vmReaderMaxToken)
    (hx : x ≠ .eof) {good : Prop}
    (hread : good → numberOrSymbol readDouble (asciiBytes text) = .ok x)
    (hmisread : ¬ good → ∃ y, numberOrSymbol readDouble (asciiBytes text) = .ok y ∧
      vmDeepEqual eqFloat x y = false) :
    Outcome readDouble eqFloat (room + 1) (asciiBytes text) x good := by
  obtain ⟨⟨first, more, hfirst, hstart, hdot, -⟩, hdatum⟩ :=
    @vmReaderDatum_number D readDouble room text hne htext hlen
  refine ⟨⟨first, more, hfirst, hstart.isSpaceByte, hstart.ne rfl, hstart.ne rfl,
    fun h => absurd h hdot⟩, hx, fun hgood fp hfp => ?_, fun hbad fp hfp y rest hy => ?_⟩
  · rw [hdatum fp hfp, hread hgood, ok_bind]
  · obtain ⟨y', hy', hdiffers⟩ := hmisread hbad
    rw [hdatum fp hfp, hy', ok_bind] at hy
    obtain ⟨rfl, -⟩ := Prod.mk.inj (Except.ok.inj hy)
    exact hdiffers

/-- The decimal text of a number within the limit for tokens. -/
def exactFits : ExactVal → Prop
  | .bignum b => (intText b.toInt).length ≤ vmReaderMaxToken
  | _ => True

/-- What it makes of an exact number. -/
theorem outcome_exact (room : ℕ) {x : ExactVal} (hx : x.Canonical) (hfits : exactFits x) :
    ∃ text, exactText x = .ok text ∧
      Outcome readDouble eqFloat (room + 1) (asciiBytes text) (.exact x)
        (x.isBigRational = false) := by
  have hshort (v : Int64) : (intText v.toInt).length ≤ vmReaderMaxToken :=
    (Eshkol.Reader.length_intText_int64 v).trans (by decide)
  have hfraction (n d : Int64) :
      (intText n.toInt ++ '/' :: intText d.toInt).length ≤ vmReaderMaxToken := by
    have hn := Eshkol.Reader.length_intText_int64 n
    have hd := Eshkol.Reader.length_intText_int64 d
    rw [List.length_append, List.length_cons, vmReaderMaxToken]
    omega
  cases x with
  | int v =>
    exact ⟨_, rfl, outcome_number room (intText_ne_nil _)
      (fun _ => Eshkol.Reader.isNumberChar_of_mem_intText) (hshort v) (by simp)
      (fun _ => numberOrSymbol_int readDouble v) fun h => absurd rfl h⟩
  | bignum b =>
    refine ⟨intText b.toInt, ?_, outcome_number room (intText_ne_nil _)
      (fun _ => Eshkol.Reader.isNumberChar_of_mem_intText) hfits (by simp)
      (fun _ => numberOrSymbol_bignum readDouble hx) fun h => absurd rfl h⟩
    rw [exactText, bignumToString_spec hx.1, ok_bind, Option.getD_some]
  | rational r =>
    cases r with
    | small n d =>
      exact ⟨_, rfl, outcome_number room (by simp)
        (fun _ => Eshkol.Reader.isNumberChar_of_mem_fraction) (hfraction n d) (by simp)
        (fun _ => numberOrSymbol_small readDouble hx) fun h => absurd rfl h⟩
    | big n d =>
      exact ⟨_, rfl, outcome_number room (by simp)
        (fun _ => Eshkol.Reader.isNumberChar_of_mem_fraction) (hfraction 0 1) (by simp)
        (fun h => absurd h (by simp [ExactVal.isBigRational, VmRational.isBig]))
        fun _ => ⟨_, numberOrSymbol_placeholders readDouble, rfl⟩⟩

/-! ### All data -/

section Leaves

variable (p : Datum D → Prop)

mutual

/-- Every leaf has the property. -/
def AllLeaves : Datum D → Prop
  | .pair car cdr => AllLeaves car ∧ AllLeaves cdr
  | .vector es => AllElements es
  | x => p x

/-- Every leaf of every element has the property. -/
def AllElements : List (Datum D) → Prop
  | [] => True
  | e :: es => AllLeaves e ∧ AllElements es

end

end Leaves

/-- A leaf of an exact datum: the empty list, a boolean, a character, an exact number, a string or a
symbol. -/
def IsExactLeaf : Datum D → Prop
  | .nil | .bool _ | .string _ | .symbol _ => True
  | .char c => IsScalar c
  | .exact x => x.Canonical
  | .eof | .float _ | .pair _ _ | .vector _ => False

/-- A leaf within the limit for tokens. -/
def LeafFits : Datum D → Prop
  | .string bytes => bytes.length ≤ vmReaderMaxToken
  | .symbol name => name.length ≤ vmReaderMaxToken
  | .exact x => exactFits x
  | _ => True

/-- A leaf that is read back. -/
def ReadableLeaf : Datum D → Prop
  | .char c => ReadableChar c
  | .exact x => x.isBigRational = false
  | _ => True

mutual

/-- How deep the reader calls itself for a datum, on its own or as what follows an element of a
list. -/
def nesting : Bool → Datum D → ℕ
  | _, .pair car cdr => max (nesting false car + 1) (nesting true cdr)
  | tail, .vector es => elementsNesting es + tail.toNat
  | true, .nil => 0
  | tail, _ => tail.toNat

/-- How deep the reader calls itself for the elements of a vector. -/
def elementsNesting : List (Datum D) → ℕ
  | [] => 0
  | e :: es => max (nesting false e + 1) (elementsNesting es)

end

theorem outcome_leaf (formatDouble : D → List UInt8) (room : ℕ) {x : Datum D}
    (hx : IsExactLeaf x) (hfits : LeafFits x) :
    ∃ text, vmWriteValuePort formatDouble false x = .ok text ∧
      Outcome readDouble eqFloat (room + 1) text x (ReadableLeaf x) ∧
      (x ≠ .nil → vmWriteValuePort formatDouble true x = .ok (asciiBytes [' ', '.', ' '] ++ text)) := by
  cases x with
  | nil => exact ⟨_, rfl, outcome_nil room, fun h => absurd rfl h⟩
  | bool b => exact ⟨_, rfl, outcome_bool room b, fun _ => rfl⟩
  | char c => exact ⟨_, rfl, outcome_char room hx, fun _ => rfl⟩
  | string bytes => exact ⟨_, rfl, outcome_string room hfits, fun _ => rfl⟩
  | symbol name => exact ⟨_, rfl, outcome_symbol room hfits, fun _ => rfl⟩
  | exact x =>
    obtain ⟨text, htext, hread⟩ := @outcome_exact D readDouble eqFloat room x hx hfits
    refine ⟨asciiBytes text, ?_, hread, fun _ => ?_⟩
    · rw [vmWriteValuePort, htext]
      rfl
    · rw [vmWriteValuePort, htext]
      rfl
  | eof | float _ | pair _ _ | vector _ => exact absurd hx id

theorem outcome_leaf_tail (formatDouble : D → List UInt8) {x : Datum D} (hx : IsExactLeaf x)
    (hfits : LeafFits x) :
    (∀ room, nesting false x < room → ∃ text, vmWriteValuePort formatDouble false x = .ok text ∧
      Outcome readDouble eqFloat room text x (ReadableLeaf x)) ∧
    ∀ room, nesting true x ≤ room → ∃ text, vmWriteValuePort formatDouble true x = .ok text ∧
      ListOutcome readDouble room text x (ReadableLeaf x)
        fun y => vmDeepEqual eqFloat x y = false := by
  constructor
  · intro room hroom
    obtain ⟨room, rfl⟩ : ∃ n, room = n + 1 := ⟨room - 1, by omega⟩
    obtain ⟨text, htext, hread, -⟩ := @outcome_leaf D readDouble eqFloat formatDouble
      room x hx hfits
    exact ⟨text, htext, hread⟩
  · intro room hroom
    by_cases hnil : x = .nil
    · subst hnil
      exact ⟨[], rfl, listOutcome_nil room _⟩
    · have hpos : 1 ≤ room := by
        refine le_trans ?_ hroom
        cases x with
        | nil => exact absurd rfl hnil
        | pair _ _ | vector _ => exact absurd hx id
        | eof | float _ | bool _ | char _ | exact _ | string _ | symbol _ => rfl
      obtain ⟨room, rfl⟩ : ∃ n, room = n + 1 := ⟨room - 1, by omega⟩
      obtain ⟨text, -, hread, htail⟩ := @outcome_leaf D readDouble eqFloat formatDouble
        room x hx hfits
      exact ⟨_, htail hnil, listOutcome_dot hread⟩

mutual

/-- What the reader makes of a written datum, in a list and out of one. -/
theorem outcome_datum (formatDouble : D → List UInt8) : ∀ x : Datum D,
    AllLeaves IsExactLeaf x → AllLeaves LeafFits x →
    (∀ room, nesting false x < room → ∃ text, vmWriteValuePort formatDouble false x = .ok text ∧
      Outcome readDouble eqFloat room text x (AllLeaves ReadableLeaf x)) ∧
    ∀ room, nesting true x ≤ room → ∃ text, vmWriteValuePort formatDouble true x = .ok text ∧
      ListOutcome readDouble room text x (AllLeaves ReadableLeaf x)
        fun y => vmDeepEqual eqFloat x y = false
  | .pair car cdr, hx, hfits => by
      have ihcar := (outcome_datum formatDouble car hx.1 hfits.1).1
      have ihcdr := (outcome_datum formatDouble cdr hx.2 hfits.2).2
      constructor
      · intro room hroom
        rw [nesting] at hroom
        obtain ⟨room, rfl⟩ : ∃ n, room = n + 2 := ⟨room - 2, by omega⟩
        obtain ⟨head, hhead, hread⟩ := ihcar (room + 1) (by omega)
        obtain ⟨tail, htail, hreads⟩ := ihcdr (room + 1) (by omega)
        refine ⟨byte '(' :: (head ++ tail ++ [byte ')']), ?_, outcome_pair hread hreads⟩
        rw [vmWriteValuePort, hhead, ok_bind, htail, ok_bind]
      · intro room hroom
        rw [nesting] at hroom
        obtain ⟨room, rfl⟩ : ∃ n, room = n + 1 := ⟨room - 1, by omega⟩
        obtain ⟨head, hhead, hread⟩ := ihcar (room + 1) (by omega)
        obtain ⟨tail, htail, hreads⟩ := ihcdr (room + 1) (by omega)
        refine ⟨byte ' ' :: (head ++ tail), ?_, listOutcome_item hread hreads ?_⟩
        · rw [vmWriteValuePort, hhead, ok_bind, htail, ok_bind]
        · rintro y z (h | ⟨-, h⟩)
          · rw [vmDeepEqual, h, Bool.false_and]
          · rw [vmDeepEqual, h, Bool.and_false]
  | .vector [], _, _ => by
      constructor
      · intro room hroom
        obtain ⟨room, rfl⟩ : ∃ n, room = n + 1 := ⟨room - 1, by omega⟩
        exact ⟨_, rfl, outcome_emptyVector room⟩
      · intro room hroom
        have hpos : 1 ≤ room := hroom
        obtain ⟨room, rfl⟩ : ∃ n, room = n + 1 := ⟨room - 1, by omega⟩
        exact ⟨_, rfl, listOutcome_dot (outcome_emptyVector room)⟩
  | .vector (e :: es), hx, hfits => by
      have ihitem := (outcome_datum formatDouble e hx.1 hfits.1).1
      have ihitems := outcome_elements formatDouble es hx.2 hfits.2
      have hvector (room : ℕ) (hroom : elementsNesting (e :: es) ≤ room + 1) :
          ∃ item items, vmWriteValuePort formatDouble false e = .ok item ∧
            vmWriteElements formatDouble es = .ok items ∧
            Outcome readDouble eqFloat (room + 2)
              (byte '#' :: byte '(' :: (item ++ items ++ [byte ')'])) (.vector (e :: es))
              (AllLeaves ReadableLeaf e ∧ AllElements ReadableLeaf es) := by
        rw [elementsNesting] at hroom
        obtain ⟨item, hitem, hread⟩ := ihitem (room + 1) (by omega)
        obtain ⟨items, hitems, hreads⟩ := ihitems (room + 1) (by omega)
        exact ⟨item, items, hitem, hitems, outcome_vector hread hreads⟩
      have hnesting : 1 ≤ elementsNesting (e :: es) := by
        rw [elementsNesting]
        omega
      constructor
      · intro room hroom
        rw [nesting] at hroom
        obtain ⟨room, rfl⟩ : ∃ n, room = n + 2 := ⟨room - 2, by omega⟩
        obtain ⟨item, items, hitem, hitems, hread⟩ := hvector room (by omega)
        refine ⟨_, ?_, hread⟩
        rw [vmWriteValuePort, hitem, ok_bind, hitems, ok_bind]
        rfl
      · intro room hroom
        have hroom' : elementsNesting (e :: es) + 1 ≤ room := by rwa [nesting] at hroom
        obtain ⟨room, rfl⟩ : ∃ n, room = n + 2 := ⟨room - 2, by omega⟩
        obtain ⟨item, items, hitem, hitems, hread⟩ := hvector room (by omega)
        refine ⟨_, ?_, listOutcome_dot hread⟩
        rw [vmWriteValuePort, hitem, ok_bind, hitems, ok_bind]
        rfl
  | .nil, hx, hfits => outcome_leaf_tail formatDouble hx hfits
  | .eof, hx, _ => absurd hx id
  | .bool _, hx, hfits => outcome_leaf_tail formatDouble hx hfits
  | .char _, hx, hfits => outcome_leaf_tail formatDouble hx hfits
  | .exact _, hx, hfits => outcome_leaf_tail formatDouble hx hfits
  | .float _, hx, _ => absurd hx id
  | .string _, hx, hfits => outcome_leaf_tail formatDouble hx hfits
  | .symbol _, hx, hfits => outcome_leaf_tail formatDouble hx hfits

theorem outcome_elements (formatDouble : D → List UInt8) : ∀ es : List (Datum D),
    AllElements IsExactLeaf es → AllElements LeafFits es → ∀ room, elementsNesting es ≤ room →
    ∃ text, vmWriteElements formatDouble es = .ok text ∧
      ListOutcome readDouble room text (listDatum es) (AllElements ReadableLeaf es)
        fun y => vmDeepEqualElements eqFloat es y.elements = false
  | [], _, _, room, _ => ⟨[], rfl, listOutcome_nil room _⟩
  | e :: es, hx, hfits, room, hroom => by
      rw [elementsNesting] at hroom
      obtain ⟨room, rfl⟩ : ∃ n, room = n + 1 := ⟨room - 1, by omega⟩
      obtain ⟨item, hitem, hread⟩ := (outcome_datum formatDouble e hx.1 hfits.1).1 (room + 1) (by omega)
      obtain ⟨items, hitems, hreads⟩ := outcome_elements formatDouble es hx.2 hfits.2 (room + 1)
        (by omega)
      refine ⟨byte ' ' :: (item ++ items), ?_, listOutcome_item hread hreads ?_⟩
      · rw [vmWriteElements, hitem, ok_bind, hitems, ok_bind]
      · rintro y z (h | ⟨-, h⟩)
        · rw [Datum.elements, vmDeepEqualElements, h, Bool.false_and]
        · rw [Datum.elements, vmDeepEqualElements, h, Bool.and_false]

end

/-! ### The round trip -/

theorem vmDeepEqual_exact_self {x : ExactVal} (hx : x.Canonical) : Vm.vmDeepEqual x x = true := by
  cases x with
  | int v => simp [Vm.vmDeepEqual]
  | bignum b => simp [Vm.vmDeepEqual, bignumCompare_eq hx.1 hx.1]
  | rational r => simp [Vm.vmDeepEqual]

mutual

theorem vmDeepEqual_self (eqFloat : D → D → Bool) : ∀ x : Datum D, AllLeaves IsExactLeaf x →
    vmDeepEqual eqFloat x x = true
  | .pair car cdr, hx => by
      rw [vmDeepEqual, vmDeepEqual_self eqFloat car hx.1, vmDeepEqual_self eqFloat cdr hx.2,
        Bool.and_self]
  | .vector es, hx => by rw [vmDeepEqual, vmDeepEqualElements_self eqFloat es hx]
  | .nil, _ => rfl
  | .eof, hx => absurd hx id
  | .bool _, _ => by simp [vmDeepEqual]
  | .char _, _ => by simp [vmDeepEqual]
  | .exact _, hx => vmDeepEqual_exact_self hx
  | .float _, hx => absurd hx id
  | .string _, _ => by simp [vmDeepEqual]
  | .symbol _, _ => by simp [vmDeepEqual]

theorem vmDeepEqualElements_self (eqFloat : D → D → Bool) : ∀ es : List (Datum D),
    AllElements IsExactLeaf es → vmDeepEqualElements eqFloat es es = true
  | [], _ => rfl
  | e :: es, hx => by
      rw [vmDeepEqualElements, vmDeepEqual_self eqFloat e hx.1,
        vmDeepEqualElements_self eqFloat es hx.2, Bool.and_self]

end

/-- `read` on the text of `write`. -/
def vmReadBack (formatDouble : D → List UInt8) (readDouble : List Char → Option D) (x : Datum D) :
    Exec Empty (Datum D) := do
  let text ← vmWriteValuePort formatDouble false x
  vmReaderFromPort readDouble text

/-- **What is read back is `equal?` to what was written** exactly if every character in it is
readable and no rational in it has a bignum part. -/
theorem vmReadBack_equal_iff (formatDouble : D → List UInt8) (readDouble : List Char → Option D)
    (eqFloat : D → D → Bool) {x : Datum D} (hx : AllLeaves IsExactLeaf x)
    (hfits : AllLeaves LeafFits x) (hdepth : nesting false x ≤ vmReaderMaxDepth) :
    (∃ y, vmReadBack formatDouble readDouble x = .ok y ∧ vmDeepEqual eqFloat x y = true) ↔
      AllLeaves ReadableLeaf x := by
  obtain ⟨text, htext, hout⟩ := (@outcome_datum D readDouble eqFloat formatDouble x hx hfits).1
    (vmReaderMaxDepth + 1) (Nat.lt_succ_of_le hdepth)
  have hread := fun hgood => hout.read hgood [] rfl
  have hmisread := fun hbad => hout.misread hbad [] rfl
  rw [List.append_nil] at hread hmisread
  rw [vmReadBack, htext, ok_bind, vmReaderFromPort]
  constructor
  · rintro ⟨y, hy, hequal⟩
    by_contra hbad
    split at hy
    next datum rest hdatum =>
        obtain rfl := Except.ok.inj hy
        rw [hmisread hbad datum rest hdatum] at hequal
        exact Bool.false_ne_true hequal
    next =>
        obtain rfl := Except.ok.inj hy
        cases x with
        | nil => exact hbad trivial
        | eof | bool _ | char _ | exact _ | float _ | string _ | symbol _ | pair _ _ | vector _ =>
          exact Bool.false_ne_true hequal
    next => simp at hy
    next => simp at hy
  · intro hgood
    refine ⟨x, ?_, vmDeepEqual_self eqFloat x hx⟩
    rw [hread hgood]

/-- `(#\a (-3 . 1/2) #("x" sym))` is read back. -/
theorem vmReadBack_equal_iff_sample :
    ∃ x y : Datum Unit, x = .pair (.char 97) (.pair (.pair (.exact (.int (-3)))
        (.exact (.rational (.small 1 2)))) (.pair (.vector [.string [120], .symbol [115]]) .nil)) ∧
      vmReadBack (fun _ => []) (fun _ => none) x = .ok y ∧
      vmDeepEqual (fun _ _ => true) x y = true := by
  have hhalf : (ExactVal.rational (.small 1 2)).Canonical := by decide
  have hone : (1 : ℕ) ≤ vmReaderMaxToken := by decide
  have hscalar : IsScalar 97 := ⟨by decide, by decide⟩
  have hreadable : ReadableChar 97 := by decide
  obtain ⟨y, hy⟩ := (vmReadBack_equal_iff (fun _ => []) (fun _ => none) (fun _ _ : Unit => true)
    (x := .pair (.char 97) (.pair (.pair (.exact (.int (-3))) (.exact (.rational (.small 1 2))))
      (.pair (.vector [.string [120], .symbol [115]]) .nil)))
    ⟨hscalar, ⟨trivial, hhalf⟩, ⟨trivial, trivial, trivial⟩, trivial⟩
    ⟨trivial, ⟨trivial, trivial⟩, ⟨hone, hone, trivial⟩, trivial⟩ (by decide)).mpr
    ⟨hreadable, ⟨rfl, rfl⟩, ⟨trivial, trivial, trivial⟩, trivial⟩
  exact ⟨_, y, rfl, hy⟩

/-- The character `λ` is read back as the first byte of its encoding. -/
theorem vmReadBack_misreads :
    ∃ x y : Datum Unit, x = .char 955 ∧ AllLeaves IsExactLeaf x ∧ AllLeaves LeafFits x ∧
      nesting false x ≤ vmReaderMaxDepth ∧ vmReadBack (fun _ => []) (fun _ => none) x = .ok y ∧
      y = .char 0xCE ∧ vmDeepEqual (fun _ _ => true) x y = false := by
  refine ⟨_, _, rfl, ⟨by decide, by decide⟩, trivial, by decide, ?_, rfl, rfl⟩
  rfl

end Eshkol.Vm.Reader
