/-
  KvEngine.Api.Chunks
  ───────────────────
  **`ReceiveRequest` depends on the stream, not on its chunks.**

  `receiveStream` is the outcome as a function of the stream: the request line
  and the headers are cut out at the first line end and the first blank line,
  the body follows.  `receiveRequest_eq` shows that both loops compute it for
  every way of cutting the stream: the first leaves a beginning of the stream
  that holds the blank line, the second one that holds the body, or all of it.
-/
import KvEngine.Api.Json
import KvEngine.Api.Request

namespace KvEngine

open Lib

namespace Api

/-! ## §1. The stream. -/

/-- The chunks make up the stream; `recv` gives at most 4096 bytes. -/
def Cuts (stream : Bytes) (chunks : List Bytes) : Prop :=
  chunks.flatten = stream ∧ ∀ c ∈ chunks, 1 ≤ c.length ∧ c.length ≤ 4096

instance (stream : Bytes) (chunks : List Bytes) : Decidable (Cuts stream chunks) :=
  inferInstanceAs (Decidable (_ ∧ _))

/-- The first line ends at `q` and the first blank line begins at `p`, with
header lines between them, and ends within the first 64 KiB. -/
structure HeaderAt (stream : Bytes) (q p : Nat) : Prop where
  line : search crlf stream = some q
  blank : search (crlf ++ crlf) stream = some p
  headers : q ≠ p
  size : p + 4 ≤ kMaxHeaderSize

/-- The header lines. -/
def headersOf (stream : Bytes) (q p : Nat) : Bytes := (stream.drop (q + 2)).take (p - (q + 2))

/-- The outcome for a stream. -/
def receiveStream (maxBodySize : Nat) (stream : Bytes) (q p : Nat) : Except Nat HttpRequest :=
  match parseRequestLine (stream.take q) with
  | none => .error 400
  | some (method, target) =>
      match parseContentLength (headersOf stream q p) with
      | none => .error 400
      | some contentLength =>
          if contentLength > maxBodySize then .error 413
          else if stream.length - (p + 4) < contentLength then .error 400
          else .ok { method, target, body := (stream.drop (p + 4)).take contentLength }

variable {stream buffer : Bytes} {chunks : List Bytes} {q p n bodyStart : Nat}

/-! ## §2. The loops. -/

/-- **The first loop** stops with a beginning of the stream that holds the
blank line. -/
theorem readHeader_of_stream (hnonempty : ∀ c ∈ chunks, c ≠ [])
    (hs : search (crlf ++ crlf) (buffer ++ chunks.flatten) = some p)
    (hsize : p + 4 ≤ kMaxHeaderSize) (hbuffer : buffer.length < p + 4) :
    ∃ received rest, readHeader buffer chunks = .found received p rest ∧
      received ++ rest.flatten = buffer ++ chunks.flatten ∧ p + 4 ≤ received.length ∧
      ∀ c ∈ rest, c ≠ [] := by
  induction chunks generalizing buffer with
  | nil =>
      rw [List.flatten_nil, List.append_nil] at hs
      have hend : p + 4 ≤ buffer.length := (search_eq_some_iff.mp hs).end_le
      omega
  | cons chunk chunks ih =>
      obtain ⟨hfirst, hrest⟩ := List.forall_mem_cons.mp hnonempty
      have hchunk : chunk.isEmpty = false := by simpa using hfirst
      rw [List.flatten_cons, ← List.append_assoc] at hs ⊢
      cases hfound : search (crlf ++ crlf) (buffer ++ chunk) with
      | some stop =>
          obtain rfl := Option.some.inj ((search_append hfound _).symm.trans hs)
          exact ⟨_, _, readHeader_stop (by omega) hchunk hfound, rfl,
            (search_eq_some_iff.mp hfound).end_le, hrest⟩
      | none =>
          -- the blank line is not complete yet
          have hopen : (buffer ++ chunk).length < p + 4 := by
            refine Nat.lt_of_not_le (fun hle => ?_)
            rw [search_of_append hs hle] at hfound
            exact absurd hfound (by simp)
          rw [readHeader_more (by omega) hchunk hfound]
          exact ih hrest hs hopen

/-- **The second loop** stops with a beginning of the stream that holds the
body, and fails if the stream ends before it. -/
theorem readBody_of_stream (hnonempty : ∀ c ∈ chunks, c ≠ []) (hstart : bodyStart ≤ buffer.length) :
    (readBody bodyStart n buffer chunks).map (fun b => (b.drop bodyStart).take n)
      = if (buffer ++ chunks.flatten).length - bodyStart < n then none
        else some (((buffer ++ chunks.flatten).drop bodyStart).take n) := by
  induction chunks generalizing buffer with
  | nil =>
      rw [List.flatten_nil, List.append_nil, readBody]
      split <;> rfl
  | cons chunk chunks ih =>
      obtain ⟨hfirst, hrest⟩ := List.forall_mem_cons.mp hnonempty
      have hchunk : chunk.isEmpty = false := by simpa using hfirst
      rw [readBody]
      split
      next =>
        rw [hchunk]
        show Option.map _ (readBody bodyStart n (buffer ++ chunk) chunks) = _
        rw [ih hrest (by rw [List.length_append]; omega), List.flatten_cons, List.append_assoc]
      next hfull =>
        -- the body is there, more bytes do not change it
        rw [if_neg (by rw [List.length_append]; omega), List.drop_append_of_le_length hstart,
          List.take_append_of_le_length (by rw [List.length_drop]; omega)]
        rfl

/-! ## §3. The outcome. -/

/-- **Every way of cutting the stream gives the outcome of the stream.** -/
theorem receiveRequest_eq (h : HeaderAt stream q p) (hcuts : Cuts stream chunks)
    (maxBodySize errorCode : Nat) :
    receiveRequest maxBodySize errorCode chunks = some (receiveStream maxBodySize stream q p) := by
  obtain ⟨rfl, hlengths⟩ := hcuts
  have hnonempty : ∀ c ∈ chunks, c ≠ [] := fun c hc hnil =>
    absurd (hlengths c hc).1 (by rw [hnil]; decide)
  have hle : q + 2 ≤ p := (crlf_before h.line h.blank).resolve_left h.headers
  obtain ⟨received, rest, hread, heq, hend, hrest⟩ := readHeader_of_stream hnonempty
    (by rw [List.nil_append]; exact h.blank) h.size
    (show ([] : Bytes).length < p + 4 from Nat.succ_pos _)
  rw [List.nil_append] at heq
  have hline : search crlf received = some q := by
    refine search_of_append (by rw [heq]; exact h.line) ?_
    show q + 2 ≤ received.length
    omega
  have htake : received.take q = chunks.flatten.take q := by
    rw [← heq, List.take_append_of_le_length (by omega)]
  have hheaders : (received.drop (q + 2)).take (p - (q + 2)) = headersOf chunks.flatten q p := by
    rw [headersOf, ← heq, List.drop_append_of_le_length (by omega),
      List.take_append_of_le_length (by rw [List.length_drop]; omega)]
  have hlength : (p + 2 ^ 64 - (q + 2)) % 2 ^ 64 = p - (q + 2) := by
    have := h.size
    rw [kMaxHeaderSize] at this
    omega
  unfold receiveRequest receiveHeader receiveStream
  simp only [hread, hline, htake, if_neg (show ¬ q > p by omega)]
  cases parseRequestLine (chunks.flatten.take q) with
  | none => rfl
  | some r =>
      obtain ⟨method, target⟩ := r
      simp only [HeaderSlice.headerLength, hlength, hheaders]
      rw [if_neg (by omega)]
      cases parseContentLength (headersOf chunks.flatten q p) with
      | none => rfl
      | some contentLength =>
          simp only
          split
          · rfl
          · have hbody := readBody_of_stream (n := contentLength) hrest hend
            rw [heq] at hbody
            split
            next hnone =>
              rw [hnone] at hbody
              split at hbody
              next hshort => rw [if_pos hshort]
              next => exact absurd hbody (by simp)
            next b hsome =>
              rw [hsome] at hbody
              split at hbody
              next => exact absurd hbody (by simp)
              next hlong =>
                have hbytes : (b.drop (p + 4)).take contentLength
                    = (chunks.flatten.drop (p + 4)).take contentLength := Option.some.inj hbody
                rw [if_neg hlong, hbytes]

/-- What the headers announce is what the code reads. -/
theorem Announces.parse {headers : Bytes} (h : Announces headers n) :
    parseContentLength headers = some n := by
  rw [parseContentLength_eq, parseOf]
  rcases h with ⟨hnone, rfl⟩ | ⟨value, hvalue, hnum, rfl⟩
  · rw [findSome_contentLength_none.mpr hnone]
  · rw [findSome_contentLength.mpr hvalue]
    exact parseValue_numeral hnum

/-- A body is there as a whole. -/
theorem receiveStream_body {maxBodySize : Nat} {request : HttpRequest}
    (h : receiveStream maxBodySize stream q p = .ok request) :
    ∃ n, parseContentLength (headersOf stream q p) = some n ∧
      request.body = (stream.drop (p + 4)).take n ∧ request.body.length = n := by
  unfold receiveStream at h
  split at h
  · exact absurd h (by simp)
  · split at h
    · exact absurd h (by simp)
    next n hn =>
      split at h
      · exact absurd h (by simp)
      · split at h
        · exact absurd h (by simp)
        · injection h with h
          subst h
          refine ⟨n, hn, rfl, ?_⟩
          rw [List.length_take, List.length_drop]
          omega

/-- **`ReceiveRequest` gives one outcome for a stream**, however it is cut into
chunks; on success the body is the bytes behind the blank line, as many as the
headers announce. -/
theorem receiveRequest_chunks {chunks' : List Bytes} (h : HeaderAt stream q p)
    (hcuts : Cuts stream chunks) (hcuts' : Cuts stream chunks')
    (maxBodySize errorCode errorCode' : Nat) :
    receiveRequest maxBodySize errorCode chunks = receiveRequest maxBodySize errorCode' chunks' ∧
      ∃ outcome, receiveRequest maxBodySize errorCode chunks = some outcome ∧
        ∀ request, outcome = .ok request →
          ∃ n, parseContentLength (headersOf stream q p) = some n ∧
            (∀ m, Announces (headersOf stream q p) m → n = m) ∧
            request.body = (stream.drop (p + 4)).take n ∧ request.body.length = n := by
  rw [receiveRequest_eq h hcuts, receiveRequest_eq h hcuts']
  refine ⟨rfl, _, rfl, fun request hok => ?_⟩
  obtain ⟨n, hn, hbody, hlength⟩ := receiveStream_body hok
  exact ⟨n, hn, fun m hm => Option.some.inj (hn.symm.trans hm.parse), hbody, hlength⟩

/-- A `PUT` with the body `hi` and a byte behind it: in one chunk, and cut
inside the blank line and inside the body. -/
theorem receiveRequest_chunks_cut :
    receiveRequest 10 0 [text "PUT /kv/a HTTP/1.1\r\nContent-Length: 2\r\n\r\nhi!"]
      = receiveRequest 10 0 [text "PUT /kv/a HTTP/1.1\r\nContent-Length: 2\r\n\r",
          text "\nh", text "i!"] := by
  have h : HeaderAt (text "PUT /kv/a HTTP/1.1\r\nContent-Length: 2\r\n\r\nhi!") 18 37 :=
    ⟨by decide, by decide, by decide, by decide⟩
  exact (receiveRequest_chunks h (by decide) (by decide) 10 0 0).1

end Api

end KvEngine
