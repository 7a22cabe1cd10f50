import Coost.Http.Scan

/-!
# The head grammar that `parse_http_req` accepts

The grammar of a request head is

  METHOD SP+ URL SP+ VERSION CRLF (KEY ':' SP* VALUE CRLF)*

A `Head` is one derivation of it.  The start line keeps the two runs of spaces as counts.  A
header line keeps `text`, the bytes between its colon and its CR, and its VALUE is `text`
without its leading spaces (`Field.value`), the split that the parser's space-skipping loop
takes.  `Head.render` writes the derivation back as bytes.  `Head.Matches` states the
side conditions of the grammar.

* `parseStartLine_eq_ok` is the inversion lemma of the start line: each `find` and each loop
  that a successful parse went through.  `parseStartLine_status` lists the statuses it fails
  with, and `parseHttpHeaders_fuel` says the header loop fails only with 400: its fuel never
  runs out.
* `parseStartLine_of_matches` and `parseStartLine_sound`: the start line is accepted exactly
  when it matches, with a URL that is not empty.
* `parseHttpHeaders_of_matches` and `parseHttpHeaders_sound`: the same for the header loop, by
  induction over the lines and over the fuel.  The buffer that comes back holds a NUL over each
  line's CR and over its first colon.
* `header_cRender`: `header` then reads each key and each value as a C string.
* `parseHttpHeaders_congr` and `parseStartLine_congr`: the parse reads and writes nothing at or
  past `size`.
-/

namespace Coost.Http

/-! ## Derivations of the grammar -/

/-- The name of a method in the grammar. -/
def methodName : Method → List Char
  | .get => "GET".toList
  | .post => "POST".toList
  | .head => "HEAD".toList
  | .put => "PUT".toList
  | .delete => "DELETE".toList
  | .options => "OPTIONS".toList

/-- The name of a version in the grammar. -/
def versionName : Version → List Char
  | .http10 => "HTTP/1.0".toList
  | .http11 => "HTTP/1.1".toList

/-- `METHOD SP+ URL SP+ VERSION CRLF`. -/
structure StartLine where
  method : List Char
  sp1 : Nat
  url : List Char
  sp2 : Nat
  version : List Char
  deriving DecidableEq, Repr

def StartLine.render (s : StartLine) : List Char :=
  s.method ++ List.replicate s.sp1 ' ' ++ s.url ++ List.replicate s.sp2 ' ' ++ s.version ++
    ['\r', '\n']

/-- The side conditions of a start line, with the method and the version it names. -/
structure StartLine.Matches (s : StartLine) (mt : Method) (v : Version) : Prop where
  method : toupper s.method = methodName mt
  sp1 : 0 < s.sp1
  url_sp : ' ' ∉ s.url
  url_cr : '\r' ∉ s.url
  sp2 : 0 < s.sp2
  version : toupper s.version = versionName v

/-- `KEY ':' SP* VALUE CRLF`, with `text` the bytes `SP* VALUE`. -/
structure Field where
  key : List Char
  text : List Char
  deriving DecidableEq, Repr

def Field.render (f : Field) : List Char := f.key ++ ':' :: f.text ++ ['\r', '\n']

/-- VALUE: the text after its leading spaces. -/
def Field.value (f : Field) : List Char := f.text.dropWhile (· = ' ')

structure Field.Matches (f : Field) : Prop where
  key_colon : ':' ∉ f.key
  key_cr : '\r' ∉ f.key
  text_cr : '\r' ∉ f.text

structure Head extends StartLine where
  fields : List Field
  deriving DecidableEq, Repr

def Head.render (h : Head) : List Char :=
  h.toStartLine.render ++ (h.fields.map Field.render).flatten

structure Head.Matches (h : Head) (mt : Method) (v : Version) : Prop where
  start : h.toStartLine.Matches mt v
  fields : ∀ f ∈ h.fields, f.Matches

/-- A string read as a C string: up to its first NUL. -/
def cut (s : List Char) : List Char := s.takeWhile (· ≠ '\x00')

/-- The lookup that `header` performs, on a derivation: the value of the first field whose key,
as a C string and upper-cased, is `key`, as a C string and upper-cased. -/
def lookupField (fs : List Field) (key : List Char) : List Char :=
  match fs.find? (fun f => toupper (cut f.key) = toupper (cut key)) with
  | some f => cut f.value
  | none => []

/-! ## The names -/

theorem lookupMethod_methodName (mt : Method) : lookupMethod (methodName mt) = some mt := by
  cases mt <;> rfl

theorem methodName_of_lookupMethod {s : List Char} {mt : Method} (h : lookupMethod s = some mt) :
    s = methodName mt := by
  obtain ⟨⟨n, mt'⟩, hf, rfl⟩ := Option.map_eq_some'.1 h
  have hn : n = s := by simpa using List.find?_some hf
  have hmem := List.mem_of_find?_eq_some hf
  simp only [methodMap, List.mem_cons, Prod.mk.injEq, List.mem_nil_iff, or_false] at hmem
  subst hn
  rcases hmem with
    ⟨rfl, rfl⟩ | ⟨rfl, rfl⟩ | ⟨rfl, rfl⟩ | ⟨rfl, rfl⟩ | ⟨rfl, rfl⟩ | ⟨rfl, rfl⟩ <;> rfl

/-- A byte that upper case fixes and that an upper-cased string lacks is not in the string. -/
theorem not_mem_of_toupper {s : List Char} {c : Char} (hc : c.toUpper = c) (h : c ∉ toupper s) :
    c ∉ s := fun hs => h (hc ▸ List.mem_map_of_mem _ hs)

theorem head?_toupper (s : List Char) : (toupper s).head? = s.head?.map Char.toUpper := by
  cases s <;> rfl

theorem methodName_not_mem {c : Char} (hc : c = ' ' ∨ c = '\r') (mt : Method) :
    c ∉ methodName mt := by
  rcases hc with rfl | rfl <;> cases mt <;> decide

/-- A version block starts with a byte that is neither a space nor a CR. -/
theorem version_head {s : List Char} {v : Version} (h : toupper s = versionName v) :
    ∃ c r, s = c :: r ∧ c ≠ ' ' ∧ c ≠ '\r' := by
  have hh := congrArg List.head? h
  rw [head?_toupper] at hh
  cases s with
  | nil => cases v <;> simp [versionName] at hh
  | cons c r =>
    refine ⟨c, r, rfl, fun hc => ?_, fun hc => ?_⟩ <;> subst hc <;> cases v <;> simp at hh <;>
      contradiction

/-! ## The start line -/

/-- Everything a successful start line went through. -/
theorem parseStartLine_eq_ok {m : List Char} {size : Nat} {mt : Method} {url : List Char}
    {v : Version} {x : Nat} :
    parseStartLine m size = .ok (mt, url, v, x) ↔
      find m '\r' 0 size = some x ∧ byteAt m (x + 1) = '\n' ∧
      ∃ p q, find m ' ' 0 x = some p ∧ lookupMethod (toupper (m.take p)) = some mt ∧
        find m ' ' (skipSp m p) (x - skipSp m p) = some q ∧
        url = window m (skipSp m p) (q - skipSp m p) ∧ byteAt m (skipSp m q) ≠ '\r' ∧
        toupper (window m (skipSp m q) (x - skipSp m q)) = versionName v := by
  constructor
  · intro h
    unfold parseStartLine at h
    rcases hx : find m '\r' 0 size with _ | x' <;> rw [hx] at h
    · cases h
    dsimp only at h
    by_cases hlf : byteAt m (x' + 1) = '\n'
    swap
    · rw [if_pos hlf] at h; cases h
    rw [if_neg (not_not.2 hlf)] at h
    rcases hp : find m ' ' 0 x' with _ | p <;> rw [hp] at h
    · cases h
    rcases hmt : lookupMethod (toupper (m.take p)) with _ | mt' <;> dsimp only at h <;>
      rw [hmt] at h
    · cases h
    rcases hq : find m ' ' (skipSp m p) (x' - skipSp m p) with _ | q <;> dsimp only at h <;>
      rw [hq] at h
    · cases h
    dsimp only at h
    by_cases hcr : byteAt m (skipSp m q) = '\r'
    · rw [if_pos hcr] at h; cases h
    rw [if_neg hcr] at h
    -- the three tests on the version block
    generalize hs : toupper (window m (skipSp m q) (x' - skipSp m q)) = s at h
    by_cases h8 : s.length ≠ 8
    · rw [if_pos h8] at h; cases h
    rw [if_neg h8] at h
    obtain ⟨v', hv, he⟩ : ∃ v', s = versionName v' ∧
        (.ok (mt', window m (skipSp m p) (q - skipSp m p), v', x') : Except Nat _) =
          .ok (mt, url, v, x) := by
      by_cases h11 : s = "HTTP/1.1".toList
      · rw [if_pos h11] at h; exact ⟨.http11, h11, h⟩
      rw [if_neg h11] at h
      by_cases h10 : s = "HTTP/1.0".toList
      · rw [if_pos h10] at h; exact ⟨.http10, h10, h⟩
      rw [if_neg h10] at h; cases h
    simp only [Except.ok.injEq, Prod.mk.injEq] at he
    obtain ⟨rfl, rfl, rfl, rfl⟩ := he
    exact ⟨rfl, hlf, p, q, hp, hmt, hq, rfl, hcr, hs.trans hv⟩
  · rintro ⟨hx, hlf, p, q, hp, hmt, hq, rfl, hcr, hv⟩
    cases v <;> simp [parseStartLine, hx, hlf, hp, hmt, hq, hcr, hv, versionName]

/-- The start line fails with one of the statuses of the source: 400, 405 or 505. -/
theorem parseStartLine_status {m : List Char} {size e : Nat}
    (h : parseStartLine m size = .error e) : e = 400 ∨ e = 405 ∨ e = 505 := by
  unfold parseStartLine at h
  rcases hx : find m '\r' 0 size with _ | x <;> rw [hx] at h
  · cases h; simp
  dsimp only at h
  by_cases hlf : byteAt m (x + 1) = '\n'
  swap
  · rw [if_pos hlf] at h; cases h; simp
  rw [if_neg (not_not.2 hlf)] at h
  rcases hp : find m ' ' 0 x with _ | p <;> rw [hp] at h
  · cases h; simp
  rcases hmt : lookupMethod (toupper (m.take p)) with _ | mt <;> dsimp only at h <;>
    rw [hmt] at h
  · cases h; simp
  rcases hq : find m ' ' (skipSp m p) (x - skipSp m p) with _ | q <;> dsimp only at h <;>
    rw [hq] at h
  · cases h; simp
  dsimp only at h
  -- the CR test, then the three tests on the version block
  generalize byteAt m (skipSp m q) = c at h
  generalize toupper (window m (skipSp m q) (x - skipSp m q)) = s at h
  by_cases hc : c = '\r'
  · rw [if_pos hc] at h; cases h; decide
  rw [if_neg hc] at h
  by_cases h8 : s.length ≠ 8
  · rw [if_pos h8] at h; cases h; decide
  rw [if_neg h8] at h
  by_cases h11 : s = "HTTP/1.1".toList
  · rw [if_pos h11] at h; cases h
  rw [if_neg h11] at h
  by_cases h10 : s = "HTTP/1.0".toList
  · rw [if_pos h10] at h; cases h
  rw [if_neg h10] at h
  cases h; decide

theorem StartLine.length_render (s : StartLine) :
    s.render.length = s.method.length + s.sp1 + s.url.length + s.sp2 + s.version.length + 2 := by
  simp only [render, List.length_append, List.length_replicate, List.length_cons,
    List.length_nil]

/-- A start line that matches, with a URL that is not empty, is accepted, whatever follows it. -/
theorem parseStartLine_of_matches {s : StartLine} {mt : Method} {v : Version}
    (hs : s.Matches mt v) (hu : s.url ≠ []) (T : List Char) {size : Nat}
    (hsize : s.render.length ≤ size) :
    parseStartLine (s.render ++ T) size = .ok (mt, s.url, v, s.render.length - 2) := by
  obtain ⟨a, ha⟩ : ∃ a, s.sp1 = a + 1 := ⟨s.sp1 - 1, by have := hs.sp1; omega⟩
  obtain ⟨b, hb⟩ : ∃ b, s.sp2 = b + 1 := ⟨s.sp2 - 1, by have := hs.sp2; omega⟩
  obtain ⟨u, U, hU⟩ := List.exists_cons_of_ne_nil hu
  obtain ⟨c, V, hV, hc, hc'⟩ := version_head hs.version
  have hMsp : ' ' ∉ s.method :=
    not_mem_of_toupper rfl (by rw [hs.method]; exact methodName_not_mem (.inl rfl) mt)
  have hMcr : '\r' ∉ s.method :=
    not_mem_of_toupper rfl (by rw [hs.method]; exact methodName_not_mem (.inr rfl) mt)
  have hVcr : '\r' ∉ s.version :=
    not_mem_of_toupper rfl (by rw [hs.version]; cases v <;> decide)
  have hu' : u ≠ ' ' := fun h => hs.url_sp (by simp [hU, h])
  -- the buffer from the points where the parser splits it
  obtain ⟨Vt, hVt⟩ : ∃ Vt, Vt = c :: V ++ '\r' :: '\n' :: T := ⟨_, rfl⟩
  obtain ⟨Ut, hUt⟩ : ∃ Ut, Ut = u :: U ++ ' ' :: (List.replicate b ' ' ++ Vt) := ⟨_, rfl⟩
  have hlen := s.length_render
  rw [ha, hb, hU, hV] at hlen
  simp only [List.length_cons] at hlen
  have hd1 : (s.render ++ T).drop (s.method.length + 1) = List.replicate a ' ' ++ Ut :=
    drop_eq_of_append (P := s.method ++ [' '])
      (by simp [StartLine.render, ha, hb, hU, hV, hUt, hVt, List.replicate_succ]) (by simp)
  have hd2 : (s.render ++ T).drop (s.method.length + 1 + a) = Ut :=
    drop_add_of_drop hd1 (List.length_replicate _ _ ▸ rfl)
  have hd3 : (s.render ++ T).drop (s.method.length + 1 + a + (U.length + 1) + 1) =
      List.replicate b ' ' ++ Vt :=
    drop_add_of_drop (A := u :: U ++ [' ']) (hd2.trans (by simp [hUt])) (by simp; omega)
  have hd4 : (s.render ++ T).drop (s.method.length + 1 + a + (U.length + 1) + 1 + b) = Vt :=
    drop_add_of_drop hd3 (List.length_replicate _ _ ▸ rfl)
  have hp : skipSp (s.render ++ T) s.method.length = s.method.length + 1 + a :=
    skipSp_of hd1 (by simpa [hUt] using hu') rfl
  have hq : skipSp (s.render ++ T) (s.method.length + 1 + a + (U.length + 1)) =
      s.method.length + 1 + a + (U.length + 1) + 1 + b :=
    skipSp_of hd3 (by simpa [hVt] using hc) rfl
  refine parseStartLine_eq_ok.2 ⟨?_, ?_, s.method.length,
    s.method.length + 1 + a + (U.length + 1), ?_, ?_, ?_, ?_, ?_, ?_⟩
  · refine find_of_drop (A := s.method ++ ' ' :: (List.replicate a ' ' ++ s.url ++
      ' ' :: (List.replicate b ' ' ++ s.version))) (B := '\n' :: T)
      (by simp [StartLine.render, ha, hb, List.replicate_succ]) ?_ (by simp [hU, hV]; omega)
      (by simp [hU, hV]; omega)
    simp [hMcr, hs.url_cr, hVcr, List.mem_replicate]
  · refine byteAt_of_drop (r := T) (drop_add_of_drop (A := c :: V ++ ['\r']) (hd4.trans ?_) ?_)
    · simp [hVt]
    · simp; omega
  · exact find_of_drop (B := List.replicate a ' ' ++ Ut)
      (by simp [StartLine.render, ha, hb, hU, hV, hUt, hVt, List.replicate_succ])
      hMsp (by omega) (Nat.zero_add _)
  · rw [show s.render ++ T = s.method ++ (List.replicate s.sp1 ' ' ++ s.url ++
      List.replicate s.sp2 ' ' ++ s.version ++ '\r' :: '\n' :: T) by simp [StartLine.render],
      List.take_left, hs.method, lookupMethod_methodName]
  · rw [hp]
    exact find_of_drop (hd2.trans hUt) (hU ▸ hs.url_sp) (by simp; omega) (by simp)
  · rw [hp, window, hd2, hUt, show s.method.length + 1 + a + (U.length + 1) -
      (s.method.length + 1 + a) = (u :: U).length by simp, List.take_left, hU]
  · rw [hq, byteAt_of_drop (hd4.trans hVt)]
    exact hc'
  · rw [hq, window, hd4, hVt, show s.render.length - 2 - (s.method.length + 1 + a +
      (U.length + 1) + 1 + b) = (c :: V).length by simp; omega, List.take_left, ← hV, hs.version]

/-- A start line that the parser accepts is a match with a URL that is not empty, and ends with its
CRLF below `size`: the LF at `size - 1` keeps the first CR below `size - 1`. -/
theorem parseStartLine_sound {m : List Char} {size : Nat} {mt : Method} {url : List Char}
    {v : Version} {x : Nat} (hlf : byteAt m (size - 1) = '\n')
    (h : parseStartLine m size = .ok (mt, url, v, x)) :
    ∃ s : StartLine, s.Matches mt v ∧ s.url = url ∧ url ≠ [] ∧ m.take (x + 2) = s.render ∧
      x + 2 ≤ size := by
  obtain ⟨hx, hlf', p, q, hp, hmt, hq, rfl, -, hv⟩ := parseStartLine_eq_ok.1 h
  obtain ⟨A, B, hA, hAcr, hAlt, rfl⟩ := find_spec hx
  simp only [List.drop_zero, Nat.zero_add] at *
  -- the LF after the CR, and the CR below `size - 1`
  obtain ⟨B, rfl⟩ : ∃ B', B = '\n' :: B' := by
    rw [byteAt_eq, drop_eq_of_append (P := A ++ ['\r']) (X := B) (by rw [hA]; simp) (by simp)]
      at hlf'
    cases B with
    | nil => cases hlf'
    | cons d B => exact ⟨B, by cases hlf'; rfl⟩
  have hsize : A.length + 2 ≤ size := by
    by_contra hc
    have hcr : byteAt m A.length = '\r' := byteAt_of_drop (drop_eq_of_append hA rfl)
    rw [show A.length = size - 1 by omega, hlf] at hcr
    exact absurd hcr (by decide)
  -- the method, up to the first space
  obtain ⟨M, C, hM, hMsp, hMlt, rfl⟩ := find_spec hp
  obtain ⟨A1, rfl, rfl⟩ := append_cons_split (hA.symm.trans (by simpa using hM)) hMlt
  simp only [List.drop_zero, Nat.zero_add] at *
  have hmt' : toupper M = methodName mt := by
    rw [hM, List.take_left] at hmt
    exact methodName_of_lookupMethod hmt
  -- the spaces after it, then the URL up to the next space
  obtain ⟨hs1, hne1⟩ := skipSp_spec m M.length
  have hp1 : M.length + 1 ≤ skipSp m M.length := Nat.le_add_right _ _
  obtain ⟨A2, rfl, hd2⟩ := replicate_split (by decide : '\r' ≠ ' ')
    ((drop_eq_of_append (P := M ++ [' ']) (X := A1 ++ '\r' :: '\n' :: B) (by rw [hM]; simp)
      (by simp)).symm.trans hs1)
  obtain ⟨E, F, hE, hEsp, hElt, rfl⟩ := find_spec hq
  simp only [List.length_append, List.length_cons, List.length_replicate] at hElt hsize
  obtain ⟨A3, rfl, rfl⟩ := append_cons_split (hd2.symm.trans hE) (by omega)
  have hE0 : E ≠ [] := by
    rintro rfl
    exact hne1 (by rw [hE]; rfl)
  -- the spaces after the URL, then the version up to the CR
  obtain ⟨hs2, -⟩ := skipSp_spec m (skipSp m M.length + E.length)
  have hq1 : skipSp m M.length + E.length + 1 ≤ skipSp m (skipSp m M.length + E.length) :=
    Nat.le_add_right _ _
  obtain ⟨V, rfl, hd4⟩ := replicate_split (by decide : '\r' ≠ ' ')
    ((drop_add_of_drop (A := E ++ [' ']) (B := A3 ++ '\r' :: '\n' :: B) (by rw [hE]; simp)
      (by simp; omega)).symm.trans hs2)
  simp only [List.length_append, List.length_cons, List.length_replicate] at hsize
  rw [window, hd4, show _ - skipSp m (skipSp m M.length + E.length) = V.length by
    simp only [List.length_append, List.length_cons, List.length_replicate]; omega,
    List.take_left] at hv
  generalize skipSp m (skipSp m M.length + E.length) = q' at *
  generalize skipSp m M.length = p' at *
  refine ⟨⟨M, p' - (M.length + 1) + 1, E, q' - (p' + E.length + 1) + 1, V⟩,
    ⟨hmt', Nat.succ_pos _, hEsp, fun h => hAcr (by simp [h]), Nat.succ_pos _, hv⟩, ?_, ?_, ?_,
    ?_⟩
  · rw [window, hE, Nat.add_sub_cancel_left, List.take_left]
  · rwa [window, hE, Nat.add_sub_cancel_left, List.take_left]
  · rw [hA, show ∀ X : List Char, X ++ '\r' :: '\n' :: B = (X ++ ['\r', '\n']) ++ B by simp,
      List.take_left' (by simp; omega)]
    simp [StartLine.render, List.replicate_succ]
  · simp only [List.length_append, List.length_cons, List.length_replicate]; omega

/-! ## The header lines -/

/-- A header line with the NULs that `parse_http_headers` writes over its first colon and its
CR. -/
def Field.cRender (f : Field) : List Char := f.key ++ '\x00' :: f.text ++ ['\x00', '\n']

/-- The offsets that `add_header` records for the lines `fs` from `x` on, as `uint32_t`: the key
at the start of its line, and the value after the spaces that follow the colon. -/
def offsets : Nat → List Field → List (Nat × Nat)
  | _, [] => []
  | x, f :: fs =>
    (x % 2 ^ 32, (x + f.key.length + 1 + (f.text.takeWhile (· = ' ')).length) % 2 ^ 32) ::
      offsets (x + f.render.length) fs

theorem Field.length_cRender (f : Field) : f.cRender.length = f.render.length := by
  simp [cRender, render]

/-- One turn of the header loop that did not fail. -/
theorem parseHttpHeaders_succ_eq_ok {size fuel x : Nat} {m : List Char}
    {arr : List (Nat × Nat)} {r : List Char × List (Nat × Nat)} :
    parseHttpHeaders size (fuel + 1) m x arr = .ok r ↔
      (size ≤ x ∧ r = (m, arr)) ∨
      (x < size ∧ ∃ p v, find m '\r' x (size - x) = some p ∧ byteAt m (p + 1) = '\n' ∧
        find (m.set p '\x00') ':' x (p - x) = some v ∧
        parseHttpHeaders size fuel ((m.set p '\x00').set v '\x00') (p + 2)
          (arr ++ [(x % 2 ^ 32, skipSp ((m.set p '\x00').set v '\x00') v % 2 ^ 32)]) = .ok r) := by
  by_cases hx : x < size
  · simp only [parseHttpHeaders, if_pos hx, hx, true_and, Nat.not_le.2 hx, false_and, false_or]
    rcases h1 : find m '\r' x (size - x) with _ | p
    · simp
    · by_cases h2 : byteAt m (p + 1) = '\n'
      · rcases h3 : find (m.set p '\x00') ':' x (p - x) with _ | v <;> simp [h2, h3]
      · simp [h2]
  · simp [parseHttpHeaders, hx, Nat.not_lt.1 hx, eq_comm]

/-- The loop's fuel never runs out, so it fails only with 400: each turn moves `x` two bytes on
at least, and `x` stays at most one past `size`.  `parseHttpReq` starts it at `x + 2 ≤ size + 1`
with `size` turns. -/
theorem parseHttpHeaders_fuel {size : Nat} {e : Nat} : ∀ (fuel : Nat) (m : List Char) (x : Nat)
    (arr : List (Nat × Nat)), x ≤ size + 1 → size + 2 ≤ x + 2 * fuel →
    parseHttpHeaders size fuel m x arr = .error e → e = 400
  | 0, _, _, _, hx, hf, _ => absurd hf (by omega)
  | fuel + 1, m, x, arr, hx, hf, h => by
    unfold parseHttpHeaders at h
    split_ifs at h with hxs
    rcases h1 : find m '\r' x (size - x) with _ | p <;> rw [h1] at h
    · cases h; rfl
    have hp := find_bounds h1
    dsimp only at h
    split_ifs at h
    · cases h; rfl
    rcases h3 : find (m.set p '\x00') ':' x (p - x) with _ | v <;> rw [h3] at h
    · cases h; rfl
    exact parseHttpHeaders_fuel fuel _ _ _ (by omega) (by omega) h

/-- Header lines that match are read one per turn.  The buffer comes back with a NUL over each
line's first colon and over its CR, and `arr` with the offsets of each key and each value. -/
theorem parseHttpHeaders_of_matches {size : Nat} :
    ∀ (fs : List Field) (fuel : Nat) (P T : List Char) (arr : List (Nat × Nat)),
      (∀ f ∈ fs, f.Matches) → fs.length < fuel →
      P.length + (fs.map Field.render).flatten.length = size →
      parseHttpHeaders size fuel (P ++ (fs.map Field.render).flatten ++ T) P.length arr =
        .ok (P ++ (fs.map Field.cRender).flatten ++ T, arr ++ offsets P.length fs)
  | [], fuel + 1, P, T, arr, _, _, hsize => by
    simp only [List.map_nil, List.flatten_nil, List.length_nil, Nat.add_zero] at hsize
    simp [parseHttpHeaders, hsize, offsets]
  | f :: fs, fuel + 1, P, T, arr, hm, hfuel, hsize => by
    have hf := hm f (List.mem_cons_self _ _)
    obtain ⟨R, hR⟩ : ∃ R, R = (fs.map Field.render).flatten ++ T := ⟨_, rfl⟩
    have hbuf : P ++ ((f :: fs).map Field.render).flatten ++ T =
        (P ++ f.key ++ ':' :: f.text) ++ '\r' :: '\n' :: R := by
      simp [hR, Field.render]
    have hlenf : f.render.length = f.key.length + f.text.length + 3 := by
      simp only [Field.render, List.length_append, List.length_cons, List.length_nil]; omega
    simp only [List.map_cons, List.flatten_cons, List.length_append] at hsize
    -- the NULs over the CR and over the colon
    have hm1 : ((P ++ f.key ++ ':' :: f.text) ++ '\r' :: '\n' :: R).set
        (P.length + f.key.length + 1 + f.text.length) '\x00' =
        P ++ f.key ++ ':' :: (f.text ++ '\x00' :: '\n' :: R) :=
      (set_eq_of_append rfl (by simp; omega)).trans (by simp)
    have hm2 : (P ++ f.key ++ ':' :: (f.text ++ '\x00' :: '\n' :: R)).set
        (P.length + f.key.length) '\x00' = (P ++ f.cRender) ++ (fs.map Field.render).flatten ++ T :=
      (set_eq_of_append rfl (by simp)).trans (by simp [hR, Field.cRender])
    -- the spaces after the colon
    have hsk : skipSp ((P ++ f.cRender) ++ (fs.map Field.render).flatten ++ T)
        (P.length + f.key.length) =
        P.length + f.key.length + 1 + (f.text.takeWhile (· = ' ')).length := by
      refine skipSp_of (r := f.value ++ '\x00' :: '\n' :: R) ?_ ?_ rfl
      · refine drop_eq_of_append (P := P ++ f.key ++ ['\x00']) ?_ (by simp; omega)
        simp only [Field.cRender, Field.value]
        conv_lhs => rw [spaces_append_dropWhile f.text]
        simp [hR]
      · have hne := head?_dropWhile_space f.text
        rw [Field.value]
        revert hne
        cases f.text.dropWhile (· = ' ') with
        | nil => simp
        | cons c r => simp
    rw [hbuf]
    refine parseHttpHeaders_succ_eq_ok.2 (.inr ⟨by omega,
      P.length + f.key.length + 1 + f.text.length, P.length + f.key.length, ?_, ?_, ?_, ?_⟩)
    · exact find_of_drop (drop_eq_of_append (P := P)
        (X := (f.key ++ ':' :: f.text) ++ '\r' :: '\n' :: R) (by simp) rfl)
        (by simp [hf.key_cr, hf.text_cr]) (by simp; omega) (by simp; omega)
    · exact byteAt_of_drop (drop_eq_of_append (P := P ++ f.key ++ ':' :: f.text ++ ['\r'])
        (X := '\n' :: R) (by simp) (by simp; omega))
    · rw [hm1]
      exact find_of_drop (drop_eq_of_append (P := P) (X := f.key ++ ':' ::
        (f.text ++ '\x00' :: '\n' :: R)) (by simp) rfl) hf.key_colon (by omega) rfl
    · rw [hm1, hm2, hsk, show P.length + f.key.length + 1 + f.text.length + 2 =
        (P ++ f.cRender).length by rw [List.length_append, Field.length_cRender]; omega,
        parseHttpHeaders_of_matches fs fuel _ T _ (fun g hg => hm g (List.mem_cons_of_mem _ hg))
          (by simp only [List.length_cons] at hfuel; omega)
          (by rw [List.length_append, Field.length_cRender]; omega)]
      simp [offsets, Field.length_cRender]

/-- Header lines that the loop accepts match, and fill `m[x, size)`.  The LF at `size - 1` keeps
each CR that the loop stops at below `size - 1`. -/
theorem parseHttpHeaders_sound {size : Nat} :
    ∀ (fuel : Nat) (m : List Char) (x : Nat) (arr : List (Nat × Nat))
      {r : List Char × List (Nat × Nat)},
      x ≤ size → byteAt m (size - 1) = '\n' → parseHttpHeaders size fuel m x arr = .ok r →
      ∃ fs : List Field, (∀ f ∈ fs, f.Matches) ∧
        (m.drop x).take (size - x) = (fs.map Field.render).flatten
  | 0, _, _, _, _, _, _, h => by cases h
  | fuel + 1, m, x, arr, r, hx, hlf, h => by
    rcases parseHttpHeaders_succ_eq_ok.1 h with ⟨hsx, -⟩ | ⟨hxs, p, v, h1, h2, h3, h4⟩
    · exact ⟨[], by simp, by rw [show size - x = 0 by omega]; simp⟩
    obtain ⟨A, B, hA, hAcr, hAlt, rfl⟩ := find_spec h1
    -- the LF after the CR, and the CR below `size - 1`
    obtain ⟨B, rfl⟩ : ∃ B', B = '\n' :: B' := by
      rw [byteAt_eq, drop_add_of_drop (A := A ++ ['\r']) (B := B) (by rw [hA]; simp)
        (by simp; omega)] at h2
      cases B with
      | nil => cases h2
      | cons d B => exact ⟨B, by cases h2; rfl⟩
    have hp2 : x + A.length + 2 ≤ size := by
      have hcr : byteAt m (x + A.length) = '\r' := byteAt_of_drop (drop_add_of_drop hA rfl)
      by_contra hc
      rw [show x + A.length = size - 1 by omega, hlf] at hcr
      exact absurd hcr (by decide)
    -- the key, up to the first colon
    have hm1 : (m.set (x + A.length) '\x00').drop x = A ++ '\x00' :: '\n' :: B := by
      rw [drop_set_ahead (by omega), hA, Nat.add_sub_cancel_left]
      exact set_eq_of_append rfl rfl
    obtain ⟨K, W, hK, hKcol, hKlt, rfl⟩ := find_spec h3
    obtain ⟨A2, rfl, rfl⟩ := append_cons_split (hm1.symm.trans hK) (by omega)
    -- the lines after this one
    have hlf' : byteAt (((m.set (x + (K ++ ':' :: A2).length) '\x00').set (x + K.length) '\x00'))
        (size - 1) = '\n' := by
      rw [byteAt_set_ne _ (by simp at hp2 ⊢; omega), byteAt_set_ne _ (by omega), hlf]
    obtain ⟨fs, hfs, hrest⟩ := parseHttpHeaders_sound fuel _ _ _ (by omega) hlf' h4
    rw [drop_set_of_lt _ (by simp; omega), drop_set_of_lt _ (by omega),
      drop_add_of_drop (A := K ++ ':' :: A2 ++ ['\r', '\n']) (B := B) (by rw [hA]; simp)
        (by simp; omega)] at hrest
    refine ⟨⟨K, A2⟩ :: fs, ?_, ?_⟩
    · simp only [List.mem_cons, forall_eq_or_imp]
      exact ⟨⟨hKcol, fun h => hAcr (by simp [h]), fun h => hAcr (by simp [h])⟩, hfs⟩
    · rw [hA, show size - x = (K ++ ':' :: A2 ++ ['\r', '\n']).length + (size - (x +
        (K ++ ':' :: A2).length + 2)) by simp at hp2 ⊢; omega,
        show K ++ ':' :: A2 ++ '\r' :: '\n' :: B = (K ++ ':' :: A2 ++ ['\r', '\n']) ++ B by simp,
        List.take_append, hrest]
      simp [Field.render]

/-! ## Nothing at or past `size` -/

/-- With the LF at `size - 1`, a CR found below `size` lies below `size - 1`. -/
theorem find_cr_lt {m : List Char} {size pos n x : Nat} (hlf : byteAt m (size - 1) = '\n')
    (hn : pos + n ≤ size) (h : find m '\r' pos n = some x) : x + 1 < size := by
  obtain ⟨-, hlt, hx⟩ := find_bounds h
  by_contra hc
  rw [show x = size - 1 by omega, hlf] at hx
  exact absurd hx (by decide)

/-- The start line reads nothing at or past `size`. -/
theorem parseStartLine_congr {m m' : List Char} {size : Nat} (hlf : byteAt m (size - 1) = '\n')
    (h : m'.take size = m.take size) : parseStartLine m' size = parseStartLine m size := by
  unfold parseStartLine
  rw [find_congr h '\r' (Nat.zero_add size).le]
  rcases hx : find m '\r' 0 size with _ | x
  · rfl
  have hx1 := find_cr_lt hlf (Nat.zero_add size).le hx
  have hcr : byteAt m x ≠ ' ' := by rw [(find_bounds hx).2.2]; decide
  dsimp only
  rw [byteAt_congr h hx1, find_congr h ' ' (by omega)]
  rcases hp : find m ' ' 0 x with _ | p
  · rfl
  have hpx := (find_bounds hp).2.1
  dsimp only
  rw [take_congr h (by omega), skipSp_congr h (by omega) (by omega) hcr]
  have hp' := skipSp_le (show p < x by omega) hcr
  rw [find_congr h ' ' (by omega)]
  rcases hq : find m ' ' (skipSp m p) (x - skipSp m p) with _ | q
  · rfl
  have hqx := (find_bounds hq).2.1
  dsimp only
  have hq' := skipSp_le (show q < x by omega) hcr
  rw [skipSp_congr h (p := q) (by omega) (by omega) hcr, window_congr h (n := q - skipSp m p)
    (by omega), byteAt_congr h (by omega), window_congr h (by omega)]

/-- The header loop reads nothing at or past `size` and writes nothing there: on a buffer that
agrees with `m` below `size`, it returns what it returns on `m`, with the bytes from `size` on
left as they were. -/
theorem parseHttpHeaders_congr {size : Nat} :
    ∀ (fuel : Nat) (m m' : List Char) (x : Nat) (arr : List (Nat × Nat)),
      x ≤ size → byteAt m (size - 1) = '\n' → m'.take size = m.take size →
      parseHttpHeaders size fuel m' x arr =
        (parseHttpHeaders size fuel m x arr).map fun r => (r.1.take size ++ m'.drop size, r.2)
  | 0, _, _, _, _, _, _, _ => rfl
  | fuel + 1, m, m', x, arr, hx, hlf, h => by
    unfold parseHttpHeaders
    split_ifs with hxs
    · rw [find_congr h '\r' (by omega)]
      rcases h1 : find m '\r' x (size - x) with _ | p
      · rfl
      have hp1 := find_cr_lt hlf (by omega) h1
      obtain ⟨hxp, -, hcr⟩ := find_bounds h1
      dsimp only
      rw [byteAt_congr h hp1]
      split_ifs
      · rfl
      have h' := take_set_congr h p '\x00'
      rw [find_congr h' ':' (by omega)]
      rcases h3 : find (m.set p '\x00') ':' x (p - x) with _ | v
      · rfl
      have hvp := (find_bounds h3).2.1
      dsimp only
      have h'' := take_set_congr h' v '\x00'
      have hnul : byteAt ((m.set p '\x00').set v '\x00') p ≠ ' ' := by
        rw [byteAt_set_ne _ (by omega), byteAt_set_self _ (by rw [hcr]; decide)]
        decide
      rw [skipSp_congr h'' (by omega) (by omega) hnul,
        parseHttpHeaders_congr fuel _ _ (p + 2) _ (by omega)
          (by rwa [byteAt_set_ne _ (by omega), byteAt_set_ne _ (by omega)]) h'',
        drop_set_of_lt _ (by omega), drop_set_of_lt _ (by omega)]
    · simp only [Except.map]
      rw [← h, List.take_append_drop]

/-! ## What `header` reads back -/

theorem header_cons (m : List Char) (kv : Nat × Nat) (arr : List (Nat × Nat)) (key : List Char) :
    header m (kv :: arr) key =
      if toupper (cstr m kv.1) = toupper (cut key) then cstr m kv.2 else header m arr key := by
  unfold header
  rw [List.find?_cons]
  by_cases hk : toupper (cstr m kv.1) = toupper (cut key)
  · have hd : decide (toupper (cstr m kv.1) = toupper (key.takeWhile (· ≠ '\x00'))) = true :=
      decide_eq_true hk
    simp only [hd, if_pos hk]
  · have hd : decide (toupper (cstr m kv.1) = toupper (key.takeWhile (· ≠ '\x00'))) = false :=
      decide_eq_false hk
    simp only [hd, if_neg hk]

theorem lookupField_cons (f : Field) (fs : List Field) (key : List Char) :
    lookupField (f :: fs) key =
      if toupper (cut f.key) = toupper (cut key) then cut f.value else lookupField fs key := by
  unfold lookupField
  rw [List.find?_cons]
  by_cases hk : toupper (cut f.key) = toupper (cut key)
  · simp only [decide_eq_true hk, if_pos hk]
  · simp only [decide_eq_false hk, if_neg hk]

/-- On the lines that the loop returns, below `2 ^ 32` bytes, where no `uint32_t` offset wraps,
`header` reads each key and each value as a C string, which is the lookup of the derivation. -/
theorem header_cRender (key : List Char) : ∀ (fs : List Field) (P T : List Char),
    P.length + (fs.map Field.cRender).flatten.length ≤ 2 ^ 32 →
    header (P ++ (fs.map Field.cRender).flatten ++ T) (offsets P.length fs) key =
      lookupField fs key
  | [], P, T, _ => by simp [header, lookupField, offsets]
  | f :: fs, P, T, hsz => by
    have hlen : f.cRender.length = f.key.length + f.text.length + 3 := by
      simp only [Field.cRender, List.length_append, List.length_cons, List.length_nil]; omega
    have hsp := (List.takeWhile_sublist (fun c : Char => decide (c = ' ')) (l := f.text)).length_le
    simp only [List.map_cons, List.flatten_cons, List.length_append] at hsz
    have hbuf : P ++ ((f :: fs).map Field.cRender).flatten ++ T =
        (P ++ f.cRender) ++ (fs.map Field.cRender).flatten ++ T := by simp
    have hk : cstr ((P ++ f.cRender) ++ (fs.map Field.cRender).flatten ++ T) P.length =
        cut f.key :=
      cstr_of_drop (drop_eq_of_append (P := P)
        (X := f.key ++ '\x00' ::
          (f.text ++ '\x00' :: '\n' :: ((fs.map Field.cRender).flatten ++ T)))
        (by simp [Field.cRender]) rfl)
    have hv : cstr ((P ++ f.cRender) ++ (fs.map Field.cRender).flatten ++ T)
        (P.length + f.key.length + 1 + (f.text.takeWhile (· = ' ')).length) = cut f.value := by
      refine cstr_of_drop (drop_eq_of_append (P := P ++ f.key ++ '\x00' ::
        List.replicate (f.text.takeWhile (· = ' ')).length ' ')
        (X := f.value ++ '\x00' :: '\n' :: ((fs.map Field.cRender).flatten ++ T)) ?_
        (by simp; omega))
      simp only [Field.cRender, Field.value]
      conv_lhs => rw [spaces_append_dropWhile f.text]
      simp
    rw [hbuf, offsets, header_cons, lookupField_cons, Nat.mod_eq_of_lt (by omega),
      Nat.mod_eq_of_lt (by omega), hk, hv, show P.length + f.render.length =
      (P ++ f.cRender).length by rw [List.length_append, Field.length_cRender],
      header_cRender key fs _ _ (by rw [List.length_append]; omega)]

end Coost.Http
