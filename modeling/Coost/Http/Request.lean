import Coost.Http.Grammar

/-!
# `parse_http_req` on the head that `on_connection` frames

`on_connection` passes `parse_http_req` the head `buf[0, pos + 2)`, which ends in CRLF
(`frameHead_endsCrlf`).  On such a head the start line and the header loop together accept
exactly the derivations of the head grammar whose URL is not empty (`parse_http_req_grammar`).
On success they record the method, the URL and the version of the derivation, and, on a head
below `2 ^ 32` bytes, `header` returns its lookup: `add_header` keeps the offsets as `uint32_t`,
so on a longer head `header` reads at offsets taken modulo `2 ^ 32`.  They read and write nothing
at or past `size`.  On any buffer they fail only with a status of the source
(`parseHttpReq_status`).

The grammar alone allows an empty URL, `METHOD SP SP VERSION`, which the parser rejects.  It
also allows a NUL inside a KEY or a VALUE, where `header` stops, since it reads both as C
strings (`head_grammar_gaps`).
-/

namespace Coost.Http

/-! ## The framed head -/

/-- `m[0, size)` is a head as `on_connection` passes it: `size` bytes of `m`, the last two of
them CRLF. -/
def EndsCrlf (m : List Char) (size : Nat) : Prop :=
  ∃ H, m.take size = H ++ ['\r', '\n'] ∧ H.length + 2 = size

theorem EndsCrlf.length_take {m : List Char} {size : Nat} (h : EndsCrlf m size) :
    (m.take size).length = size := by
  obtain ⟨H, hH, hl⟩ := h
  rw [hH, List.length_append]; exact hl

theorem EndsCrlf.lf {m : List Char} {size : Nat} (h : EndsCrlf m size) :
    byteAt m (size - 1) = '\n' := by
  obtain ⟨H, hH, hl⟩ := h
  rw [← byteAt_take (show size - 1 < size by omega), hH]
  exact byteAt_of_drop (drop_eq_of_append (P := H ++ ['\r']) (X := ['\n']) (by simp)
    (by simp; omega))

/-- A `\r\n\r\n` that `find` returns splits the buffer there. -/
theorem findCrlfCrlf_spec : ∀ {l : List Char} {pos : Nat}, findCrlfCrlf l = some pos →
    ∃ A B, l = A ++ '\r' :: '\n' :: '\r' :: '\n' :: B ∧ A.length = pos
  | [], _, h => by cases h
  | c :: t, pos, h => by
    unfold findCrlfCrlf at h
    split_ifs at h with hp
    · cases h
      obtain ⟨B, hB⟩ := List.isPrefixOf_iff_prefix.1 hp
      exact ⟨[], B, hB.symm, rfl⟩
    · obtain ⟨pos', h', rfl⟩ := Option.map_eq_some'.1 h
      obtain ⟨A, B, rfl, rfl⟩ := findCrlfCrlf_spec h'
      exact ⟨c :: A, B, rfl, rfl⟩

/-- The head that `on_connection` frames ends in CRLF, and the NUL it writes sits at `size`. -/
theorem frameHead_endsCrlf {buf m : List Char} {size : Nat} (h : frameHead buf = some (m, size)) :
    EndsCrlf m size ∧ byteAt m size = '\x00' := by
  obtain ⟨pos, hpos, hm⟩ := Option.map_eq_some'.1 h
  cases hm
  obtain ⟨A, B, rfl, rfl⟩ := findCrlfCrlf_spec hpos
  rw [set_eq_of_append (X := A ++ ['\r', '\n']) (c := '\r') (Y := '\n' :: B) (by simp) (by simp)]
  exact ⟨⟨A, List.take_left' (by simp), rfl⟩,
    byteAt_of_drop (drop_eq_of_append rfl (by simp))⟩

/-! ## The whole head -/

/-- The parse reads and writes nothing at or past `size`. -/
theorem parseHttpReq_congr {m m' : List Char} {size : Nat} (hlf : byteAt m (size - 1) = '\n')
    (h : m'.take size = m.take size) :
    parseHttpReq m' size =
      (parseHttpReq m size).map fun r => (r.1.take size ++ m'.drop size, r.2) := by
  unfold parseHttpReq
  rw [parseStartLine_congr hlf h]
  rcases hs : parseStartLine m size with e | ⟨mt, url, v, x⟩
  · rfl
  obtain ⟨-, -, -, -, -, hx⟩ := parseStartLine_sound hlf hs
  dsimp only
  rw [parseHttpHeaders_congr size m m' (x + 2) [] hx hlf h]
  rcases parseHttpHeaders size size m (x + 2) [] with e | ⟨b, arr⟩ <;> rfl

/-- Every status of the model is one that `parse_http_req` returns: the header loop's fuel never
runs out. -/
theorem parseHttpReq_status {m : List Char} {size e : Nat} (h : parseHttpReq m size = .error e) :
    e = 400 ∨ e = 405 ∨ e = 505 := by
  unfold parseHttpReq at h
  rcases hs : parseStartLine m size with e' | ⟨mt, url, v, x⟩ <;> rw [hs] at h
  · cases h; exact parseStartLine_status hs
  dsimp only at h
  rcases hh : parseHttpHeaders size size m (x + 2) [] with e' | ⟨b, arr⟩ <;> rw [hh] at h
  · cases h
    have hx := (find_bounds (parseStartLine_eq_ok.1 hs).1).2.1
    exact .inl (parseHttpHeaders_fuel size m (x + 2) [] (by omega) (by omega) hh)
  · cases h

theorem length_le_flatten_render (fs : List Field) :
    fs.length ≤ (fs.map Field.render).flatten.length := by
  induction fs with
  | nil => simp
  | cons f fs ih =>
    simp only [List.length_cons, List.map_cons, List.flatten_cons, List.length_append,
      Field.render, List.length_nil]
    omega

theorem length_flatten_cRender (fs : List Field) :
    (fs.map Field.cRender).flatten.length = (fs.map Field.render).flatten.length := by
  induction fs with
  | nil => rfl
  | cons f fs ih =>
    simp only [List.map_cons, List.flatten_cons, List.length_append, Field.length_cRender, ih]

/-- A head that matches is parsed, with the method, the URL and the version of the match, and
on a head of at most `2 ^ 32` bytes `header` returns the lookup of the match. -/
theorem parseHttpReq_of_matches {m : List Char} {size : Nat} (hend : EndsCrlf m size)
    (h32 : size ≤ 2 ^ 32) {h : Head} {mt : Method} {v : Version} (hm : h.Matches mt v)
    (hu : h.url ≠ []) (hr : h.render = m.take size) :
    ∃ m' arr, parseHttpReq m size = .ok (m', ⟨mt, h.url, v, arr⟩) ∧
      ∀ key, header m' arr key = lookupField h.fields key := by
  have hbuf : m = h.toStartLine.render ++ (h.fields.map Field.render).flatten ++ m.drop size := by
    conv_lhs => rw [← List.take_append_drop size m, ← hr]
    rfl
  have hlen : h.toStartLine.render.length + (h.fields.map Field.render).flatten.length = size := by
    rw [← hend.length_take, ← hr, Head.render, List.length_append]
  have h2 : 2 ≤ h.toStartLine.render.length := by rw [StartLine.length_render]; omega
  have hs := parseStartLine_of_matches hm.start hu ((h.fields.map Field.render).flatten ++
    m.drop size) (show h.toStartLine.render.length ≤ size by omega)
  rw [← List.append_assoc, ← hbuf] at hs
  have hh := parseHttpHeaders_of_matches h.fields size h.toStartLine.render
    (m.drop size) [] hm.fields (by have := length_le_flatten_render h.fields; omega) hlen
  rw [← hbuf] at hh
  refine ⟨h.toStartLine.render ++ (h.fields.map Field.cRender).flatten ++ m.drop size,
    offsets h.toStartLine.render.length h.fields, ?_, fun key => header_cRender key h.fields _ _
      (by rw [length_flatten_cRender]; omega)⟩
  rw [parseHttpReq, hs]
  dsimp only
  rw [Nat.sub_add_cancel h2, hh]
  rfl

/-- A head that the parser accepts matches, with a URL that is not empty. -/
theorem matches_of_parseHttpReq {m : List Char} {size : Nat} (hlf : byteAt m (size - 1) = '\n')
    {r : List Char × HttpReq} (hr : parseHttpReq m size = .ok r) :
    ∃ (h : Head) (mt : Method) (v : Version), h.Matches mt v ∧ h.url ≠ [] ∧
      h.render = m.take size := by
  unfold parseHttpReq at hr
  split at hr
  · cases hr
  next mt url v x hs =>
  split at hr
  · cases hr
  next b arr hh =>
  obtain ⟨s, hsm, rfl, hu, htake, hx⟩ := parseStartLine_sound hlf hs
  obtain ⟨fs, hfs, hrest⟩ := parseHttpHeaders_sound size m (x + 2) [] hx hlf hh
  refine ⟨⟨s, fs⟩, mt, v, ⟨hsm, hfs⟩, hu, ?_⟩
  rw [Head.render, ← htake, ← hrest, ← List.take_add, Nat.add_sub_cancel' hx]

/-- What the head parser does on the head `m[0, size)`. -/
structure AcceptsGrammar (m : List Char) (size : Nat) : Prop where
  /-- It succeeds exactly on the derivations of the grammar with a URL that is not empty. -/
  ok_iff : (∃ r, parseHttpReq m size = .ok r) ↔
    ∃ (h : Head) (mt : Method) (v : Version), h.Matches mt v ∧ h.url ≠ [] ∧
      h.render = m.take size
  /-- It records the method, the URL and the version of the derivation, and `header` returns the
  derivation's lookup. -/
  result : ∀ (h : Head) (mt : Method) (v : Version), h.Matches mt v → h.url ≠ [] →
    h.render = m.take size →
    ∃ m' arr, parseHttpReq m size = .ok (m', ⟨mt, h.url, v, arr⟩) ∧
      ∀ key, header m' arr key = lookupField h.fields key
  /-- It reads and writes nothing at or past `size`. -/
  below_size : ∀ m', m'.take size = m.take size →
    parseHttpReq m' size =
      (parseHttpReq m size).map fun r => (r.1.take size ++ m'.drop size, r.2)

theorem parse_http_req_grammar (m : List Char) (size : Nat) (hend : EndsCrlf m size)
    (h32 : size ≤ 2 ^ 32) : AcceptsGrammar m size where
  ok_iff := ⟨fun ⟨_, hr⟩ => matches_of_parseHttpReq hend.lf hr,
    fun ⟨_, _, _, hm, hu, hr⟩ =>
      let ⟨m', _, he, _⟩ := parseHttpReq_of_matches hend h32 hm hu hr
      ⟨(m', _), he⟩⟩
  result _ _ _ hm hu hr := parseHttpReq_of_matches hend h32 hm hu hr
  below_size _ h := parseHttpReq_congr hend.lf h

theorem parse_http_req_grammar_host :
    EndsCrlf "GET /a HTTP/1.1\r\nHost:  x\r\n\x00\n".toList 27 ∧ 27 ≤ 2 ^ 32 ∧
      AcceptsGrammar "GET /a HTTP/1.1\r\nHost:  x\r\n\x00\n".toList 27 :=
  have h : EndsCrlf "GET /a HTTP/1.1\r\nHost:  x\r\n\x00\n".toList 27 :=
    ⟨"GET /a HTTP/1.1\r\nHost:  x".toList, by decide, rfl⟩
  ⟨h, by decide, parse_http_req_grammar _ _ h (by decide)⟩

/-- Where the parser and the grammar as written part.  `GET  HTTP/1.1` has an empty URL between
its two spaces; the grammar derives it and the parser rejects it with 400.  In `A: b\0c` the
VALUE is `b\0c`, and `header("a")` returns `b`. -/
theorem head_grammar_gaps :
    let m0 := "GET  HTTP/1.1\r\n\x00\n".toList
    let h0 : Head := ⟨⟨"GET".toList, 1, [], 1, "HTTP/1.1".toList⟩, []⟩
    let m1 := "GET / HTTP/1.1\r\nA: b\x00c\r\n\x00\n".toList
    let h1 : Head :=
      ⟨⟨"GET".toList, 1, "/".toList, 1, "HTTP/1.1".toList⟩, [⟨"A".toList, " b\x00c".toList⟩]⟩
    (EndsCrlf m0 15 ∧ h0.Matches .get .http11 ∧ h0.render = m0.take 15 ∧
      parseHttpReq m0 15 = .error 400) ∧
    (EndsCrlf m1 24 ∧ h1.Matches .get .http11 ∧ h1.render = m1.take 24 ∧
      h1.fields.map Field.value = ["b\x00c".toList] ∧
      ∃ m' arr, parseHttpReq m1 24 = .ok (m', ⟨.get, "/".toList, .http11, arr⟩) ∧
        header m' arr "a".toList = "b".toList) := by
  intro m0 h0 m1 h1
  have hE1 : EndsCrlf m1 24 := ⟨"GET / HTTP/1.1\r\nA: b\x00c".toList, by decide, rfl⟩
  have hM1 : h1.Matches .get .http11 := by
    refine ⟨⟨by decide, by decide, by decide, by decide, by decide, by decide⟩, ?_⟩
    simp only [h1, List.mem_singleton, forall_eq]
    exact ⟨by decide, by decide, by decide⟩
  have hr1 : h1.render = m1.take 24 := by decide
  obtain ⟨m', arr, hp, hh⟩ := parseHttpReq_of_matches hE1 (by decide) hM1 (by decide) hr1
  refine ⟨⟨⟨"GET  HTTP/1.1".toList, by decide, rfl⟩,
    ⟨⟨by decide, by decide, by decide, by decide, by decide, by decide⟩, by simp [h0]⟩,
    by decide, rfl⟩, hE1, hM1, hr1, by decide, m', arr, hp, ?_⟩
  rw [hh]
  decide

end Coost.Http
