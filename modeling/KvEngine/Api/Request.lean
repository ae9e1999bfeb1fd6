/-
  KvEngine.Api.Request
  ────────────────────
  `ReceiveRequest`: a request from the bytes a client sends.

  What `recv` gives is a list of chunks; an empty one, and the end of the
  list, is an error or the end of the stream.  A header view that does not lie
  inside the buffer has no defined contents; `receiveRequest` is `none` there.

  `slice_inside` says which requests reach such a view: those with a blank
  line directly behind the request line.
-/
import KvEngine.Api.ContentLength

namespace KvEngine

open Lib

namespace Api

/-! ## §1. The code. -/

structure HttpRequest where
  method : Bytes
  target : Bytes
  body : Bytes
  deriving DecidableEq, Repr

def kMaxHeaderSize : Nat := 64 * 1024

/-- `"HTTP/1.1"`. -/
def http11 : Bytes := [72, 84, 84, 80, 47, 49, 46, 49]

/-- How the first loop ends. -/
inductive HeaderRead where
  /-- `recv` gave nothing. -/
  | closed
  /-- No blank line in all the bytes it takes. -/
  | missing
  | found (buffer : Bytes) (headerEnd : Nat) (chunks : List Bytes)
  deriving DecidableEq, Repr

/-- The loop that looks for the blank line. -/
def readHeader (buffer : Bytes) : List Bytes → HeaderRead
  | [] => if buffer.length < kMaxHeaderSize then .closed else .missing
  | chunk :: chunks =>
      if buffer.length < kMaxHeaderSize then
        if chunk.isEmpty then .closed
        else
          let buffer := buffer ++ chunk
          match search (crlf ++ crlf) buffer with
          | some headerEnd => .found buffer headerEnd chunks
          | none => readHeader buffer chunks
      else .missing

/-- `stream >> word`: the next word and what follows it. -/
def extract (stream : Bytes) : Bytes × Bytes :=
  let stream := stream.dropWhile isSpace
  (stream.takeWhile (fun c => !isSpace c), stream.dropWhile (fun c => !isSpace c))

/-- The method and the target of a request line. -/
def parseRequestLine (line : Bytes) : Option (Bytes × Bytes) :=
  let (method, stream) := extract line
  let (target, stream) := extract stream
  let (version, _) := extract stream
  if method.isEmpty || target.isEmpty || version != http11 then none else some (method, target)

/-- The state in which the headers are cut out of the buffer. -/
structure HeaderSlice where
  method : Bytes
  target : Bytes
  buffer : Bytes
  headerStart : Nat
  headerEnd : Nat
  /-- What has not been received yet. -/
  chunks : List Bytes
  deriving DecidableEq, Repr

/-- `header_end - header_start` in 64 bits. -/
def HeaderSlice.headerLength (s : HeaderSlice) : Nat :=
  (s.headerEnd + 2 ^ 64 - s.headerStart) % 2 ^ 64

/-- The part up to the header slice; `errorCode` is what the caller has set. -/
def receiveHeader (errorCode : Nat) (chunks : List Bytes) : Except Nat HeaderSlice :=
  match readHeader [] chunks with
  | .closed => .error errorCode
  | .missing => .error 400
  | .found buffer headerEnd chunks =>
      match search crlf buffer with
      | none => .error 400
      | some requestLineEnd =>
          if requestLineEnd > headerEnd then .error 400
          else
            match parseRequestLine (buffer.take requestLineEnd) with
            | none => .error 400
            | some (method, target) =>
                let headerStart := requestLineEnd + 2
                .ok { method, target, buffer, headerStart, headerEnd, chunks }

/-- The loop that receives the rest of the body. -/
def readBody (bodyStart contentLength : Nat) (buffer : Bytes) : List Bytes → Option Bytes
  | [] => if buffer.length - bodyStart < contentLength then none else some buffer
  | chunk :: chunks =>
      if buffer.length - bodyStart < contentLength then
        if chunk.isEmpty then none else readBody bodyStart contentLength (buffer ++ chunk) chunks
      else some buffer

def receiveRequest (maxBodySize errorCode : Nat) (chunks : List Bytes) :
    Option (Except Nat HttpRequest) :=
  match receiveHeader errorCode chunks with
  | .error code => some (.error code)
  | .ok s =>
      if s.buffer.length < s.headerStart + s.headerLength then none
      else
        match parseContentLength ((s.buffer.drop s.headerStart).take s.headerLength) with
        | none => some (.error 400)
        | some contentLength =>
            if contentLength > maxBodySize then some (.error 413)
            else
              let bodyStart := s.headerEnd + 4
              match readBody bodyStart contentLength s.buffer s.chunks with
              | none => some (.error 400)
              | some buffer =>
                  let body := (buffer.drop bodyStart).take contentLength
                  some (.ok { method := s.method, target := s.target, body })

/-! ## §2. The first loop. -/

theorem readHeader_stop {buffer chunk : Bytes} {chunks : List Bytes} {headerEnd : Nat}
    (hsize : buffer.length < kMaxHeaderSize) (hchunk : chunk.isEmpty = false)
    (hs : search (crlf ++ crlf) (buffer ++ chunk) = some headerEnd) :
    readHeader buffer (chunk :: chunks) = .found (buffer ++ chunk) headerEnd chunks := by
  simp only [readHeader, if_pos hsize, hchunk, Bool.false_eq_true, if_false, hs]

theorem readHeader_more {buffer chunk : Bytes} {chunks : List Bytes}
    (hsize : buffer.length < kMaxHeaderSize) (hchunk : chunk.isEmpty = false)
    (hs : search (crlf ++ crlf) (buffer ++ chunk) = none) :
    readHeader buffer (chunk :: chunks) = readHeader (buffer ++ chunk) chunks := by
  rw [readHeader, if_pos hsize, hchunk]
  simp only [Bool.false_eq_true, if_false, hs]

/-- The loop reads on until the blank line is complete. -/
theorem readHeader_found {headerEnd : Nat} {rest : List Bytes} {b : Bytes} :
    ∀ {chunks : List Bytes} {buffer : Bytes},
      readHeader buffer chunks = .found b headerEnd rest →
      ∃ k, k < chunks.length ∧ (∀ c ∈ chunks.take (k + 1), c ≠ []) ∧
        (buffer ++ (chunks.take k).flatten).length < kMaxHeaderSize ∧
        b = buffer ++ (chunks.take (k + 1)).flatten ∧ rest = chunks.drop (k + 1) ∧
        search (crlf ++ crlf) b = some headerEnd := by
  intro chunks
  induction chunks with
  | nil =>
      intro buffer h
      rw [readHeader] at h
      split at h <;> exact absurd h (by simp)
  | cons chunk chunks ih =>
      intro buffer h
      rw [readHeader] at h
      split at h
      next hsize =>
        split at h
        next => exact absurd h (by simp)
        next hne =>
          have hchunk : chunk ≠ [] := fun hnil => hne (by rw [hnil]; rfl)
          simp only at h
          split at h
          next stop hs =>
            -- this chunk completes the blank line
            injection h with hb hstop hrest
            refine ⟨0, Nat.zero_lt_succ _, ?_, ?_, ?_, ?_, ?_⟩
            · simpa using hchunk
            · simpa using hsize
            · simpa using hb.symm
            · exact hrest.symm
            · rw [← hb, hs, hstop]
          next =>
            obtain ⟨k, hk, hnonempty, hlen, hb, hrest, hs⟩ := ih h
            refine ⟨k + 1, Nat.succ_lt_succ hk, ?_, ?_, ?_, ?_, hs⟩
            · rw [List.take_succ_cons]
              exact List.forall_mem_cons.mpr ⟨hchunk, hnonempty⟩
            · rw [List.take_succ_cons, List.flatten_cons, ← List.append_assoc]
              exact hlen
            · rw [List.take_succ_cons, List.flatten_cons, ← List.append_assoc]
              exact hb
            · exact hrest
      next => exact absurd h (by simp)

/-- **A blank line that arrives in time is found**, in a buffer that holds
some of the chunks. -/
theorem readHeader_of_search {headerEnd : Nat} :
    ∀ {chunks : List Bytes} {buffer : Bytes} {k : Nat}, k < chunks.length →
      (∀ c ∈ chunks.take (k + 1), c ≠ []) →
      (buffer ++ (chunks.take k).flatten).length < kMaxHeaderSize →
      search (crlf ++ crlf) (buffer ++ (chunks.take (k + 1)).flatten) = some headerEnd →
      ∃ j ≤ k, readHeader buffer chunks
          = .found (buffer ++ (chunks.take (j + 1)).flatten) headerEnd (chunks.drop (j + 1)) ∧
        search (crlf ++ crlf) (buffer ++ (chunks.take (j + 1)).flatten) = some headerEnd := by
  intro chunks
  induction chunks with
  | nil => intro buffer k hk; exact absurd hk (Nat.not_lt_zero k)
  | cons chunk chunks ih =>
      intro buffer k hk hnonempty hlen hs
      have hchunk : chunk.isEmpty = false := by
        have := hnonempty chunk (by simp)
        simpa using this
      have hsize : buffer.length < kMaxHeaderSize := by
        rw [List.length_append] at hlen
        omega
      cases hfirst : search (crlf ++ crlf) (buffer ++ chunk) with
      | some stop =>
          -- the same occurrence, before the later chunks
          rw [List.take_succ_cons, List.flatten_cons, ← List.append_assoc] at hs
          obtain rfl := Option.some.inj ((search_append hfirst _).symm.trans hs)
          refine ⟨0, Nat.zero_le _, ?_, ?_⟩
          · rw [readHeader_stop hsize hchunk hfirst]
            simp
          · simpa using hfirst
      | none =>
          cases k with
          | zero =>
              rw [List.take_succ_cons, List.take_zero, List.flatten_singleton, hfirst] at hs
              exact absurd hs (by simp)
          | succ k =>
              rw [List.take_succ_cons, List.flatten_cons, ← List.append_assoc] at hlen hs
              obtain ⟨j, hj, hread, hs'⟩ := ih (Nat.lt_of_succ_lt_succ hk)
                (fun c hc => hnonempty c (List.mem_cons_of_mem _ hc)) hlen hs
              refine ⟨j + 1, Nat.succ_le_succ hj, ?_, ?_⟩
              · rw [readHeader_more hsize hchunk hfirst, List.take_succ_cons, List.flatten_cons,
                  ← List.append_assoc]
                exact hread
              · rw [List.take_succ_cons, List.flatten_cons, ← List.append_assoc]
                exact hs'

/-! ## §3. The header slice. -/

/-- The first line end, and the first blank line. -/
theorem crlf_before {b : Bytes} {q p : Nat} (hq : search crlf b = some q)
    (hp : search (crlf ++ crlf) b = some p) : q = p ∨ q + 2 ≤ p := by
  have hq := search_eq_some_iff.mp hq
  have hp := search_eq_some_iff.mp hp
  have hcrlf : crlf <+: b.drop p := (List.prefix_append crlf crlf).trans hp.here
  have hle : q ≤ p := Nat.le_of_not_lt (fun hlt => hq.before p hlt hcrlf)
  -- One byte after the CR there is the LF.
  have hne : q + 1 ≠ p := by
    rintro rfl
    obtain ⟨t, ht⟩ := hq.here
    rw [← List.drop_drop, ← ht] at hcrlf
    exact absurd (List.cons_prefix_cons.mp hcrlf).1 (by decide)
  omega

/-- What has been established where the headers are cut out. -/
theorem receiveHeader_ok {errorCode : Nat} {chunks : List Bytes} {s : HeaderSlice}
    (h : receiveHeader errorCode chunks = .ok s) :
    ∃ q, readHeader [] chunks = .found s.buffer s.headerEnd s.chunks ∧
      search crlf s.buffer = some q ∧ (parseRequestLine (s.buffer.take q)).isSome = true ∧
      s.headerStart = q + 2 := by
  unfold receiveHeader at h
  split at h
  · exact absurd h (by simp)
  · exact absurd h (by simp)
  next buffer headerEnd rest hread =>
    split at h
    · exact absurd h (by simp)
    next q hq =>
      split at h
      · exact absurd h (by simp)
      · split at h
        · exact absurd h (by simp)
        next method target hline =>
          injection h with h
          subst h
          exact ⟨q, hread, hq, by rw [hline]; rfl, rfl⟩

/-- `header_start` does not exceed `header_end`, and the header view lies
inside the buffer. -/
def SliceInside (errorCode : Nat) (chunks : List Bytes) : Prop :=
  ∀ s, receiveHeader errorCode chunks = .ok s →
    s.headerStart ≤ s.headerEnd ∧ s.headerStart + s.headerLength ≤ s.buffer.length

/-- A request line that is well formed is directly followed by the blank line,
and both arrive: no chunk up to there is empty, and fewer than 64 KiB had been
received before the last of these chunks. -/
def Bare (chunks : List Bytes) : Prop :=
  ∃ line k, k < chunks.length ∧ (∀ c ∈ chunks.take (k + 1), c ≠ []) ∧
    (chunks.take k).flatten.length < kMaxHeaderSize ∧
    line ++ crlf ++ crlf <+: (chunks.take (k + 1)).flatten ∧
    search crlf (line ++ crlf) = some line.length ∧ (parseRequestLine line).isSome = true

/-- A view that begins in the buffer ends there. -/
theorem HeaderSlice.inside {s : HeaderSlice} (hle : s.headerStart ≤ s.headerEnd)
    (hend : s.headerEnd ≤ s.buffer.length) :
    s.headerStart + s.headerLength ≤ s.buffer.length := by
  have hlength : s.headerLength ≤ s.headerEnd - s.headerStart := by
    rw [headerLength, show s.headerEnd + 2 ^ 64 - s.headerStart
      = s.headerEnd - s.headerStart + 2 ^ 64 by omega, Nat.add_mod_right]
    exact Nat.mod_le _ _
  omega

/-- The wrapped difference is reached. -/
theorem Bare.receiveHeader {chunks : List Bytes} (h : Bare chunks) (errorCode : Nat) :
    ∃ s, receiveHeader errorCode chunks = .ok s ∧ s.headerStart = s.headerEnd + 2 := by
  obtain ⟨line, k, hk, hnonempty, hlen, hpre, hline, hparse⟩ := h
  obtain ⟨tail, htail⟩ := hpre
  have hfirst : search crlf (chunks.take (k + 1)).flatten = some line.length := by
    rw [← htail, List.append_assoc]
    exact search_append hline _
  have hblank : search (crlf ++ crlf) (chunks.take (k + 1)).flatten = some line.length := by
    refine search_eq_some_iff.mpr ⟨(search_eq_some_iff.mp hfirst).le, ?_, fun j hj hpre => ?_⟩
    · rw [← htail, List.append_assoc line, List.append_assoc line, List.drop_left]
      exact List.prefix_append _ _
    · exact (search_eq_some_iff.mp hfirst).before j hj
        ((List.prefix_append crlf crlf).trans hpre)
  rw [← List.nil_append (chunks.take k).flatten] at hlen
  rw [← List.nil_append (chunks.take (k + 1)).flatten] at hblank
  obtain ⟨j, hj, hread, hs⟩ := readHeader_of_search hk hnonempty hlen hblank
  rw [List.nil_append] at hread hs
  have hend := (search_eq_some_iff.mp hs).end_le
  -- The buffer holds the request line and the blank line.
  obtain ⟨more, hmore⟩ : (chunks.take (j + 1)).flatten <+: (chunks.take (k + 1)).flatten := by
    rw [show chunks.take (j + 1) = (chunks.take (k + 1)).take (j + 1) by
      rw [List.take_take, Nat.min_eq_left (Nat.succ_le_succ hj)]]
    conv_rhs => rw [← List.take_append_drop (j + 1) (chunks.take (k + 1)), List.flatten_append]
    exact List.prefix_append _ _
  have hcrlf : search crlf (chunks.take (j + 1)).flatten = some line.length := by
    rw [← hmore] at hfirst
    exact search_of_append hfirst (by rw [List.length_append] at hend; omega)
  have htake : (chunks.take (j + 1)).flatten.take line.length = line := by
    rw [← hmore, List.append_assoc, List.append_assoc] at htail
    have := congrArg (List.take line.length) htail
    rw [List.take_left, List.take_append_of_le_length (by omega)] at this
    exact this.symm
  obtain ⟨⟨method, target⟩, hmethod⟩ := Option.isSome_iff_exists.mp hparse
  refine ⟨⟨method, target, (chunks.take (j + 1)).flatten, line.length + 2, line.length,
    chunks.drop (j + 1)⟩, ?_, rfl⟩
  simp only [Api.receiveHeader, hread, hcrlf, htake, hmethod]
  exact if_neg (Nat.lt_irrefl _)

/-- **The header slice lies inside the buffer** if and only if the blank line
does not directly follow the request line, however the bytes are cut into
chunks. -/
theorem slice_inside (errorCode : Nat) (chunks : List Bytes) :
    SliceInside errorCode chunks ↔ ¬ Bare chunks := by
  constructor
  · intro h hbare
    obtain ⟨s, hs, hstart⟩ := hbare.receiveHeader errorCode
    have hle := (h s hs).1
    omega
  · intro h s hs
    obtain ⟨q, hread, hq, hparse, hstart⟩ := receiveHeader_ok hs
    obtain ⟨k, hk, hnonempty, hlen, hb, -, hblank⟩ := readHeader_found hread
    rw [List.nil_append] at hlen hb
    have hblank' := search_eq_some_iff.mp hblank
    rcases crlf_before hq hblank with heq | hle
    · refine absurd ⟨s.buffer.take q, k, hk, hnonempty, hlen, ?_, ?_, hparse⟩ h
      · have hsplit := search_split hblank
        rw [← hb, heq, List.append_assoc]
        exact ⟨_, hsplit.symm⟩
      · have hsplit := search_split hq
        have hlength : (s.buffer.take q).length = q := by
          rw [List.length_take]
          exact Nat.min_eq_left (search_eq_some_iff.mp hq).le
        rw [hsplit] at hq
        rw [hlength]
        exact search_of_append hq (by rw [List.length_append, hlength])
    · exact ⟨by omega, HeaderSlice.inside (by omega) hblank'.le⟩

/-- `GET / HTTP/1.1` and a blank line. -/
theorem slice_inside_bare : ¬ ∀ errorCode chunks, SliceInside errorCode chunks := by
  intro hall
  have hs : receiveHeader 400 [[71, 69, 84, 32, 47, 32, 72, 84, 84, 80, 47, 49, 46, 49, 13, 10, 13,
      10]] = .ok ⟨[71, 69, 84], [47], [71, 69, 84, 32, 47, 32, 72, 84, 84, 80, 47, 49, 46, 49, 13,
      10, 13, 10], 16, 14, []⟩ := by rfl
  exact absurd (hall 400 _ _ hs).1 (by decide)

/-- Otherwise the call has a result. -/
theorem receiveRequest_isSome (maxBodySize errorCode : Nat) {chunks : List Bytes}
    (h : ¬ Bare chunks) : (receiveRequest maxBodySize errorCode chunks).isSome = true := by
  unfold receiveRequest
  split
  · rfl
  next s hs =>
    have hinside := ((slice_inside errorCode chunks).mpr h s hs).2
    rw [if_neg (Nat.not_lt.mpr hinside)]
    split
    · rfl
    · split
      · rfl
      · simp only
        split <;> rfl

end Api

end KvEngine
