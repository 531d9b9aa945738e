import ContractLowering.SExpr.Reader

/-!
# Scanning texts

`readForest` keeps track of positions for its error messages. `scan` reads without them, and only
what has neither comments nor quotes, so it is evaluated in proofs: the trees it finds in a text
are the ones that `readForest` reads there, also when the text stands between others
(`Reads.append`, `readForest_of_reads`).
-/

namespace ContractLowering.SExpr

/-! ## Bytes of a text -/

theorem toList_loop (bs : ByteArray) (i : Nat) (r : List UInt8) :
    ByteArray.toList.loop bs i r = r.reverse ++ bs.data.toList.drop i := by
  fun_induction ByteArray.toList.loop bs i r with
  | case1 i r h ih =>
    have hlt : i < bs.data.toList.length := h
    have hget : bs.get! i = bs.data.toList[i] := by simp [ByteArray.get!, h]
    rw [ih, List.drop_eq_getElem_cons hlt, hget]
    simp
  | case2 i r h =>
    have hle : bs.data.toList.length ≤ i := Nat.le_of_not_lt h
    rw [List.drop_eq_nil_of_le hle]
    simp

theorem toUTF8_toList (s : String) :
    s.toUTF8.toList = s.toList.flatMap String.utf8EncodeChar := by
  obtain ⟨cs, rfl⟩ : ∃ cs, s = String.ofList cs := ⟨s.toList, String.ofList_toList.symm⟩
  rw [ByteArray.toList, toList_loop]
  simp [String.toUTF8, List.utf8Encode]

/-- The bytes of characters below 128. -/
def bytesOf (cs : List Char) : List UInt8 := cs.map (·.val.toUInt8)

theorem flatMap_utf8EncodeChar {cs : List Char} (h : cs.all (·.val ≤ 127) = true) :
    cs.flatMap String.utf8EncodeChar = bytesOf cs := by
  induction cs with
  | nil => rfl
  | cons c cs ih =>
    simp only [List.all_cons, Bool.and_eq_true, decide_eq_true_eq] at h
    rw [List.flatMap_cons, ih h.2,
      String.utf8EncodeChar_eq_singleton (Char.utf8Size_eq_one_iff.2 h.1)]
    rfl

/-! ## The scanner -/

def isBlankByte (b : UInt8) : Bool :=
  let c := Char.ofUInt8 b
  c == ' ' || c == '\t' || c == '\n' || c == '\r'

/-- The trees of a list once an atom that was begun is taken. -/
def flush (atom : List UInt8) (cur : List SExpr) : List SExpr :=
  if atom.isEmpty then cur else .atom (textOfRev atom) :: cur

/-- The trees in the bytes that come, after the bytes of an atom, the trees of the innermost list
and those of the lists around it (newest first). -/
def scan (atom : List UInt8) (cur : List SExpr) (outer : List (List SExpr)) :
    List UInt8 → Option (List SExpr)
  | [] => if atom.isEmpty && outer.isEmpty then some cur.reverse else none
  | b :: bs =>
    if isAtomByte b then scan (b :: atom) cur outer bs
    else if isBlankByte b then scan [] (flush atom cur) outer bs
    else if Char.ofUInt8 b == '(' then scan [] [] (flush atom cur :: outer) bs
    else if Char.ofUInt8 b == ')' then
      match outer with
      | [] => none
      | es :: outer => scan [] (.list (flush atom cur).reverse :: es) outer bs
    else none

/-- The trees in a text of characters below 128. -/
def scanText (cs : List Char) : Option (List SExpr) :=
  if cs.all (·.val ≤ 127) then scan [] [] [] (bytesOf cs) else none

/-! ## Scanning and reading -/

/-- The open lists when trees already stand in the outermost one. -/
def under (base : List SExpr) (cur : List SExpr) :
    List (List SExpr) → List SExpr × List (List SExpr)
  | [] => (cur ++ base, [])
  | es :: outer => (cur, (under base es outer).1 :: (under base es outer).2)

/-- A reader whose open lists are the scanner's. -/
structure Holding (base cur : List SExpr) (outer : List (List SExpr)) (r : Reader) : Prop where
  closed : r.closed = none
  current : r.current = (under base cur outer).1
  outer : r.outer = (under base cur outer).2

/-- A reader in the state of the scanner. -/
structure Scanning (base : List SExpr) (atom : List UInt8) (cur : List SExpr)
    (outer : List (List SExpr)) (r : Reader) : Prop extends Holding base cur outer r where
  mode : r.mode = if atom.isEmpty then .between else .inAtom atom

section

variable {base cur es : List SExpr} {atom : List UInt8} {outer : List (List SExpr)} {r : Reader}
  {b : UInt8}

theorem under_cons (e : SExpr) :
    under base (e :: cur) outer = (e :: (under base cur outer).1, (under base cur outer).2) := by
  cases outer <;> rfl

/-- An atom has none of the other characters. -/
theorem ne_of_isAtomByte (h : isAtomByte b = true) {c : Char}
    (hc : (c.isAlphanum || "!#$%&*+-./:<=>?@_~".toList.contains c) = false) :
    (Char.ofUInt8 b == c) = false := by
  rw [beq_eq_false_iff_ne]
  rintro rfl
  simp only [isAtomByte, hc] at h
  cases h

theorem feedBetween_atom (h : isAtomByte b = true) :
    r.feedBetween b = .ok (r.advance (.inAtom [b])) := by
  simp [Reader.feedBetween, ne_of_isAtomByte h (c := ' ') (by decide),
    ne_of_isAtomByte h (c := '\t') (by decide), ne_of_isAtomByte h (c := '\n') (by decide),
    ne_of_isAtomByte h (c := '\r') (by decide), ne_of_isAtomByte h (c := ';') (by decide),
    ne_of_isAtomByte h (c := '(') (by decide), ne_of_isAtomByte h (c := ')') (by decide),
    ne_of_isAtomByte h (c := '"') (by decide), h]

theorem Scanning.feed_atom (h : Scanning base atom cur outer r) (hb : isAtomByte b = true) :
    ∃ r', r.feed b = .ok r' ∧ Scanning base (b :: atom) cur outer r' := by
  refine ⟨r.advance (.inAtom (b :: atom)), ?_, ⟨h.closed, h.current, h.outer⟩, rfl⟩
  rw [Reader.feed, h.closed, Option.isSome_none, if_neg (by simp), Reader.feedInside, h.mode]
  cases atom with
  | nil => exact feedBetween_atom hb
  | cons a atom => simp [ne_of_isAtomByte hb (c := '"') (by decide), hb]

/-- What is no part of an atom comes after the atom. -/
theorem Scanning.feed_flush (h : Scanning base atom cur outer r) (hb : isAtomByte b = false)
    (hquote : (Char.ofUInt8 b == '"') = false) :
    ∃ r' : Reader, r.feed b = r'.feedBetween b ∧ Holding base (flush atom cur) outer r' := by
  cases atom with
  | nil =>
    refine ⟨r, ?_, h.closed, h.current, h.outer⟩
    rw [Reader.feed, h.closed, Option.isSome_none, if_neg (by simp), Reader.feedInside, h.mode]
    rfl
  | cons a atom =>
    refine ⟨r.token (.atom (textOfRev (a :: atom))), ?_, h.closed, ?_, ?_⟩
    · rw [Reader.feed, h.closed, Option.isSome_none, if_neg (by simp), Reader.feedInside, h.mode]
      simp [hquote, hb]
    · rw [flush, if_neg (by simp), under_cons, ← h.current]
      rfl
    · rw [flush, if_neg (by simp), under_cons, ← h.outer]
      rfl

theorem Holding.feed_blank (h : Holding base cur outer r) (hb : isBlankByte b = true) :
    (Char.ofUInt8 b == '"') = false ∧
      ∃ r', r.feedBetween b = .ok r' ∧ Scanning base [] cur outer r' := by
  have hnext : Scanning base [] cur outer (r.advance .between) :=
    ⟨⟨h.closed, h.current, h.outer⟩, rfl⟩
  have hline : Scanning base [] cur outer (r.lineBreak b) := by
    unfold Reader.lineBreak
    split <;> exact ⟨⟨h.closed, h.current, h.outer⟩, rfl⟩
  simp only [isBlankByte, Bool.or_eq_true, beq_iff_eq] at hb
  rcases hb with ((hb | hb) | hb) | hb
  · exact ⟨by rw [hb]; rfl, r.advance .between, by simp [Reader.feedBetween, hb], hnext⟩
  · exact ⟨by rw [hb]; rfl, r.advance .between, by simp [Reader.feedBetween, hb], hnext⟩
  · exact ⟨by rw [hb]; rfl, r.lineBreak b, by simp [Reader.feedBetween, hb], hline⟩
  · exact ⟨by rw [hb]; rfl, r.lineBreak b, by simp [Reader.feedBetween, hb], hline⟩

theorem Holding.feed_opening (h : Holding base cur outer r) (hb : Char.ofUInt8 b = '(') :
    ∃ r', r.feedBetween b = .ok r' ∧ Scanning base [] [] (cur :: outer) r' := by
  refine ⟨(r.token .opening).advance .between, by simp [Reader.feedBetween, hb],
    ⟨h.closed, rfl, ?_⟩, rfl⟩
  show r.current :: r.outer = _
  rw [h.current, h.outer]
  rfl

theorem Holding.feed_closing (h : Holding base cur (es :: outer) r)
    (hb : Char.ofUInt8 b = ')') :
    ∃ r', r.feedBetween b = .ok r' ∧ Scanning base [] (.list cur.reverse :: es) outer r' := by
  refine ⟨(r.token .closing).advance .between, by simp [Reader.feedBetween, hb], ?_⟩
  have htoken : r.token .closing = { r with
      current := .list cur.reverse :: (under base es outer).1
      outer := (under base es outer).2 } := by
    rw [Reader.token, h.outer, h.current]
    rfl
  rw [htoken]
  exact ⟨⟨h.closed, by rw [under_cons]; rfl, by rw [under_cons]; rfl⟩, rfl⟩

/-- What is scanned is read. -/
theorem Scanning.foldlM (h : Scanning base atom cur outer r) {bs : List UInt8}
    (hscan : scan atom cur outer bs = some es) :
    ∃ r', bs.foldlM Reader.feed r = .ok r' ∧ Scanning base [] es.reverse [] r' := by
  induction bs generalizing atom cur outer r with
  | nil =>
    rw [scan] at hscan
    split at hscan
    · rename_i hend
      simp only [Bool.and_eq_true, List.isEmpty_iff] at hend
      obtain ⟨rfl, rfl⟩ := hend
      obtain rfl := Option.some.inj hscan
      exact ⟨r, rfl, by simpa using h⟩
    · cases hscan
  | cons b bs ih =>
    -- a byte that ends an atom leads to a state from which the rest is scanned
    have step : ∀ {cur' outer'}, isAtomByte b = false → (Char.ofUInt8 b == '"') = false →
        (∀ r', Holding base (flush atom cur) outer r' →
          ∃ r'', r'.feedBetween b = .ok r'' ∧ Scanning base [] cur' outer' r'') →
        scan [] cur' outer' bs = some es →
        ∃ r', (b :: bs).foldlM Reader.feed r = .ok r' ∧ Scanning base [] es.reverse [] r' := by
      intro cur' outer' hb hquote hfeed hscan
      obtain ⟨r', hr, h'⟩ := h.feed_flush hb hquote
      obtain ⟨r'', hr', h''⟩ := hfeed r' h'
      rw [List.foldlM_cons, hr, hr']
      exact ih h'' hscan
    rw [scan.eq_def] at hscan
    dsimp only at hscan
    by_cases hb : isAtomByte b = true
    · rw [if_pos hb] at hscan
      obtain ⟨r', hr, h'⟩ := h.feed_atom hb
      rw [List.foldlM_cons, hr]
      exact ih h' hscan
    rw [if_neg hb] at hscan
    rw [Bool.not_eq_true] at hb
    split at hscan
    · rename_i hblank
      exact step hb (h.toHolding.feed_blank hblank).1
        (fun r' h' => (h'.feed_blank hblank).2) hscan
    split at hscan
    · rename_i hopening
      rw [beq_iff_eq] at hopening
      exact step hb (by rw [hopening]; rfl) (fun r' h' => h'.feed_opening hopening) hscan
    split at hscan
    · rename_i hclosing
      rw [beq_iff_eq] at hclosing
      cases outer with
      | nil => cases hscan
      | cons es outer =>
        exact step hb (by rw [hclosing]; rfl) (fun r' h' => h'.feed_closing hclosing) hscan
    · cases hscan

end

/-! ## Texts -/

/-- That a text is read as trees wherever it stands in the outermost list. -/
def Reads (text : String) (es : List SExpr) : Prop :=
  ∀ base r, Scanning base [] [] [] r →
    ∃ r', text.toUTF8.toList.foldlM Reader.feed r = .ok r' ∧ Scanning base [] es.reverse [] r'

section

variable {text text' : String} {es es' : List SExpr} {cs : List Char}

theorem Reads.of_scan (h : text = String.ofList cs) (hscan : scanText cs = some es) :
    Reads text es := by
  intro base r hr
  unfold scanText at hscan
  split at hscan
  · rename_i hascii
    rw [h, toUTF8_toList, String.toList_ofList, flatMap_utf8EncodeChar hascii]
    exact hr.foldlM hscan
  · cases hscan

theorem Reads.append (h : Reads text es) (h' : Reads text' es') :
    Reads (text ++ text') (es ++ es') := by
  intro base r hr
  obtain ⟨r₁, hr₁, h₁⟩ := h base r hr
  have hnext : Scanning (es.reverse ++ base) [] [] [] r₁ :=
    ⟨⟨h₁.closed, h₁.current, h₁.outer⟩, h₁.mode⟩
  obtain ⟨r₂, hr₂, h₂⟩ := h' _ r₁ hnext
  refine ⟨r₂, ?_, ⟨h₂.closed, ?_, h₂.outer⟩, h₂.mode⟩
  · rw [toUTF8_toList, String.toList_append, List.flatMap_append, ← toUTF8_toList,
      ← toUTF8_toList, List.foldlM_append, hr₁]
    exact hr₂
  · rw [h₂.current]
    simp [under]

theorem readForest_of_reads (h : Reads text es) : readForest text = .ok es := by
  obtain ⟨r, hr, h⟩ := h [] {} ⟨⟨rfl, rfl, rfl⟩, rfl⟩
  have hfeed : r.feed 41 = .ok ((r.token .closing).advance .between) := by
    rw [Reader.feed, h.closed, Option.isSome_none, if_neg (by simp), Reader.feedInside, h.mode]
    rfl
  have hclosed : (r.token .closing).closed = some es := by
    rw [Reader.token, h.outer, h.current]
    simp [under]
  have hbytes : (text ++ ")").toUTF8.toList = text.toUTF8.toList ++ [41] := by
    rw [toUTF8_toList, toUTF8_toList, String.toList_append, List.flatMap_append]
    rfl
  rw [readForest, hbytes, List.foldlM_append, hr]
  show ((List.foldlM Reader.feed r [41]) >>= fun r => r.finish) = _
  rw [List.foldlM_cons, hfeed]
  show Reader.finish _ = _
  unfold Reader.finish
  rw [show ((r.token .closing).advance .between).closed = some es from hclosed]

end

end ContractLowering.SExpr
