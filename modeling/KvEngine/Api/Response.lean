/-
  KvEngine.Api.Response
  ─────────────────────
  What a client gets: `BuildResponse` and `SendAll`.

  A response announces the length of its body, and `send` may take any part
  of what it is given, fail, or end the process.  A client that reads the
  announced number of bytes gets the status code and the body, or nothing: no
  beginning of a response is a response (`readResponse_take`).
-/
import KvEngine.Api.Chunks
import KvEngine.Api.Json

namespace KvEngine

open Lib

namespace Api

/-! ## §1. The code. -/

def reasonPhrase (code : Nat) : Bytes :=
  match code with
  | 200 => text "OK"
  | 400 => text "Bad Request"
  | 404 => text "Not Found"
  | 405 => text "Method Not Allowed"
  | 409 => text "Conflict"
  | 413 => text "Payload Too Large"
  | 500 => text "Internal Server Error"
  | 501 => text "Not Implemented"
  | _ => text "Error"

/-- The default of `content_type`. -/
def applicationJson : Bytes := text "application/json"

def buildResponse (code : Nat) (body contentType : Bytes) : Bytes :=
  text "HTTP/1.1 " ++ decimal code ++ text " " ++ reasonPhrase code ++ crlf ++
    text "Content-Type: " ++ contentType ++ crlf ++
    text "Content-Length: " ++ decimal body.length ++ crlf ++
    text "Connection: close" ++ crlf ++
    text "Access-Control-Allow-Origin: *" ++ crlf ++
    text "Access-Control-Allow-Methods: GET, PUT, DELETE, POST, OPTIONS" ++ crlf ++
    text "Access-Control-Allow-Headers: Content-Type" ++ crlf ++
    crlf ++ body

/-- What a call of `send` does: it takes some bytes, it fails, or the client has closed
the connection.  The flags are 0 and nothing handles `SIGPIPE`, so that the process
ends there. -/
inductive SendResult where
  | takes (n : Nat)
  | fails
  | brokenPipe
  deriving DecidableEq, Repr

/-- `SendAll`: what it returns, unless the process ends in it, and the bytes `send`
has taken.  The list has what `send` does, call by call; behind it the socket fails. -/
def sendAll : List SendResult → Bytes → Option Bool × Bytes
  | _, [] => (some true, [])
  | [], _ => (some false, [])
  | .fails :: _, _ => (some false, [])
  | .brokenPipe :: _, _ => (none, [])
  | .takes n :: sends, data =>
      if n = 0 then (some false, [])
      else
        let (done, sent) := sendAll sends (data.drop n)
        (done, data.take n ++ sent)

/-! ## §2. A client. -/

/-- The status code and the body of a response, once its header lines and as many
bytes as they announce are there. -/
def readResponse (received : Bytes) : Option (Nat × Bytes) := do
  let lineEnd ← search crlf received
  let headerEnd ← search (crlf ++ crlf) received
  let contentLength ← parseContentLength (headersOf received lineEnd headerEnd)
  if received.length < headerEnd + 4 + contentLength then none
  else
    let code := decimalValue (((received.take lineEnd).drop 9).takeWhile isDigit)
    some (code, (received.drop (headerEnd + 4)).take contentLength)

/-! ## §3. Lines. -/

/-- The search goes on behind a byte that is not a carriage return. -/
theorem search_skip {c : UInt8} (hc : ¬ 13 = c) (pattern s : Bytes) :
    search (13 :: pattern) (c :: s) = (search (13 :: pattern) s).map (· + 1) := by
  have hpre : ¬ 13 :: pattern <+: c :: s := fun hpre => hc (List.cons_prefix_cons.mp hpre).1
  rw [search, if_neg hpre]

theorem search_crlf_line {line : Bytes} (h : 13 ∉ line) (rest : Bytes) :
    search crlf (line ++ crlf ++ rest) = some line.length := by
  induction line with
  | nil => rfl
  | cons c line ih =>
      rw [List.mem_cons, not_or] at h
      obtain ⟨hc, hline⟩ := h
      exact (search_skip hc _ _).trans (congrArg (Option.map (· + 1)) (ih hline))

/-- A blank line is looked for behind a line that is not followed by one. -/
theorem search_blank_line {line rest : Bytes} (h : 13 ∉ line) (hrest : ¬ crlf <+: rest) :
    search (crlf ++ crlf) (line ++ crlf ++ rest)
      = (search (crlf ++ crlf) rest).map (· + (line.length + 2)) := by
  induction line with
  | nil =>
      show (if crlf ++ crlf <+: 13 :: 10 :: rest then some 0 else
        (if crlf ++ crlf <+: 10 :: rest then some 0
          else (search (crlf ++ crlf) rest).map (· + 1)).map (· + 1)) = _
      have hfirst : ¬ crlf ++ crlf <+: 13 :: 10 :: rest := fun hpre =>
        hrest (List.cons_prefix_cons.mp (List.cons_prefix_cons.mp hpre).2).2
      have hsecond : ¬ crlf ++ crlf <+: 10 :: rest := fun hpre =>
        absurd (List.cons_prefix_cons.mp hpre).1 (by decide)
      rw [if_neg hfirst, if_neg hsecond, Option.map_map]
      rfl
  | cons c line ih =>
      rw [List.mem_cons, not_or] at h
      obtain ⟨hc, hline⟩ := h
      refine ((search_skip hc _ _).trans (congrArg (Option.map (· + 1)) (ih hline))).trans ?_
      rw [Option.map_map]
      refine congrArg (fun f => Option.map f _) (funext fun n => ?_)
      show n + (line.length + 2) + 1 = n + ((line.length + 1) + 2)
      omega

/-- A blank line behind a line. -/
theorem search_blank_here {line : Bytes} (h : 13 ∉ line) (rest : Bytes) :
    search (crlf ++ crlf) (line ++ (crlf ++ crlf) ++ rest) = some line.length := by
  induction line with
  | nil => rfl
  | cons c line ih =>
      rw [List.mem_cons, not_or] at h
      obtain ⟨hc, hline⟩ := h
      exact (search_skip hc _ _).trans (congrArg (Option.map (· + 1)) (ih hline))

/-- Lines without a carriage return, none of them empty. -/
def PlainLines (lines : List Bytes) : Prop := ∀ line ∈ lines, 13 ∉ line ∧ line ≠ []

/-- **The first blank line** is the one behind the lines. -/
theorem search_blank_joinLines : ∀ {lines : List Bytes} (rest : Bytes), PlainLines lines →
    lines ≠ [] →
    search (crlf ++ crlf) (joinLines lines ++ (crlf ++ crlf) ++ rest)
      = some (joinLines lines).length := by
  intro lines
  induction lines with
  | nil => intro _ _ hne; exact absurd rfl hne
  | cons line lines ih =>
      intro rest hplain _
      obtain ⟨hline, -⟩ := hplain line List.mem_cons_self
      cases lines with
      | nil => exact search_blank_here hline rest
      | cons next lines =>
          have hrest := ih rest (fun l hl => hplain l (List.mem_cons_of_mem _ hl))
            (List.cons_ne_nil _ _)
          obtain ⟨hnext, hsome⟩ := hplain next (List.mem_cons_of_mem _ List.mem_cons_self)
          have hstart : ¬ crlf <+: joinLines (next :: lines) ++ (crlf ++ crlf) ++ rest := by
            obtain ⟨c, tail, rfl⟩ := List.exists_cons_of_ne_nil hsome
            intro hpre
            have hc : ∃ t, joinLines ((c :: tail) :: lines) = c :: t := by
              cases lines with
              | nil => exact ⟨tail, rfl⟩
              | cons l ls => exact ⟨_, rfl⟩
            obtain ⟨t, ht⟩ := hc
            rw [ht] at hpre
            obtain ⟨rfl, -⟩ := List.cons_prefix_cons.mp hpre
            exact hnext List.mem_cons_self
          show search (crlf ++ crlf) (line ++ crlf ++ joinLines (next :: lines) ++ (crlf ++ crlf)
            ++ rest) = some (line ++ crlf ++ joinLines (next :: lines)).length
          rw [List.append_assoc (line ++ crlf), List.append_assoc (line ++ crlf),
            search_blank_line hline hstart, hrest]
          refine congrArg some ?_
          rw [List.length_append, List.length_append]
          show _ + (line.length + 2) = line.length + 2 + _
          omega

/-- Cut at each CRLF, the lines come back. -/
theorem crlfLines_joinLines : ∀ {lines : List Bytes}, PlainLines lines → lines ≠ [] →
    crlfLines (joinLines lines) = lines := by
  intro lines
  induction lines with
  | nil => intro _ hne; exact absurd rfl hne
  | cons line lines ih =>
      intro hplain _
      obtain ⟨hline, -⟩ := hplain line List.mem_cons_self
      cases lines with
      | nil =>
          refine crlfLines_of_search_none (search_eq_none_iff.mpr fun j _ hpre => hline ?_)
          exact List.mem_of_mem_drop (hpre.subset List.mem_cons_self)
      | cons next lines =>
          have hrest := ih (fun l hl => hplain l (List.mem_cons_of_mem _ hl))
            (List.cons_ne_nil _ _)
          show crlfLines (line ++ crlf ++ joinLines (next :: lines)) = _
          rw [crlfLines_of_search (search_crlf_line hline _)]
          have htake : (line ++ crlf ++ joinLines (next :: lines)).take line.length = line := by
            rw [List.append_assoc, List.take_left]
          have hdrop : (line ++ crlf ++ joinLines (next :: lines)).drop (line.length + 2)
              = joinLines (next :: lines) := List.drop_left' (by rw [List.length_append]; rfl)
          rw [htake, hdrop, hrest]

/-! ## §4. The lines of a response. -/

/-- The lines before the blank one, for a body of `n` bytes. -/
def responseLines (code : Nat) (contentType : Bytes) (n : Nat) : List Bytes :=
  [text "HTTP/1.1 " ++ decimal code ++ text " " ++ reasonPhrase code,
    text "Content-Type: " ++ contentType, text "Content-Length: " ++ decimal n,
    text "Connection: close", text "Access-Control-Allow-Origin: *",
    text "Access-Control-Allow-Methods: GET, PUT, DELETE, POST, OPTIONS",
    text "Access-Control-Allow-Headers: Content-Type"]

theorem buildResponse_eq (code : Nat) (body contentType : Bytes) :
    buildResponse code body contentType
      = joinLines (responseLines code contentType body.length) ++ (crlf ++ crlf) ++ body := by
  unfold buildResponse responseLines
  simp only [joinLines, List.append_assoc]

theorem decimal_digits {n : Nat} (h : n < 2 ^ 64) : ∀ b ∈ decimal n, isDigit b = true :=
  (numeral_decimal h).digits

theorem not_mem_decimal {n : Nat} (h : n < 2 ^ 64) {b : UInt8} (hb : isDigit b = false) :
    b ∉ decimal n := fun hmem => by
  rw [decimal_digits h b hmem] at hb
  cases hb

theorem reasonPhrase_plain (code : Nat) : 13 ∉ reasonPhrase code := by
  unfold reasonPhrase
  split <;> decide

section Lines

variable {code n : Nat} {contentType : Bytes}

theorem responseLines_plain (hcode : code < 2 ^ 64) (hn : n < 2 ^ 64) (htype : 13 ∉ contentType) :
    PlainLines (responseLines code contentType n) := by
  have hdigits : ∀ {m : Nat}, m < 2 ^ 64 → 13 ∉ decimal m := fun hm =>
    not_mem_decimal hm (by decide)
  have happend : ∀ {a b : Bytes}, 13 ∉ a → 13 ∉ b → 13 ∉ a ++ b := fun ha hb hmem =>
    (List.mem_append.mp hmem).elim ha hb
  have hsome : ∀ {a : Bytes} (b : Bytes), a ≠ [] → a ++ b ≠ [] := fun _ hne hnil =>
    hne (List.append_eq_nil_iff.mp hnil).1
  unfold responseLines PlainLines
  simp only [List.forall_mem_cons]
  refine ⟨⟨?_, ?_⟩, ⟨?_, ?_⟩, ⟨?_, ?_⟩, by decide, by decide, by decide, by decide,
    fun line hline => absurd hline List.not_mem_nil⟩
  · exact happend (happend (happend (by decide) (hdigits hcode)) (by decide))
      (reasonPhrase_plain code)
  · exact hsome _ (hsome _ (hsome _ (by decide)))
  · exact happend (by decide) htype
  · exact hsome _ (by decide)
  · exact happend (by decide) (hdigits hn)
  · exact hsome _ (by decide)

/-- Blanks before digits are trimmed. -/
theorem trim_decimal (h : n < 2 ^ 64) : trim (32 :: decimal n) = decimal n := by
  have hdigit : ∀ b ∈ decimal n, isBlank b = false := by
    intro b hb
    have hspace := isSpace_of_isDigit (decimal_digits h b hb)
    unfold isSpace at hspace
    unfold isBlank
    rw [Bool.or_eq_false_iff, Bool.and_eq_false_iff, decide_eq_false_iff_not] at hspace
    obtain ⟨h32, hrange⟩ := hspace
    rw [h32, Bool.false_or]
    refine beq_eq_false_iff_ne.mpr ?_
    rintro rfl
    exact absurd hrange (by decide)
  have hne := (numeral_decimal h).nonempty
  have hfront : (32 :: decimal n).dropWhile isBlank = decimal n := by
    rw [List.dropWhile_cons_of_pos (by decide), List.dropWhile_eq_self_iff]
    intro hlen
    rw [hdigit _ (List.getElem_mem hlen)]
    exact Bool.false_ne_true
  unfold trim
  rw [hfront, List.rdropWhile_eq_self_iff]
  intro hlast
  rw [hdigit _ (List.getLast_mem hlast)]
  exact Bool.false_ne_true

/-- **The lines announce the length.** -/
theorem responseLines_announce (hcode : code < 2 ^ 64) (hn : n < 2 ^ 64)
    (htype : 13 ∉ contentType) :
    parseContentLength (joinLines (responseLines code contentType n).tail) = some n := by
  have hplain : PlainLines (responseLines code contentType n).tail := fun line hline =>
    responseLines_plain hcode hn htype line (List.mem_of_mem_tail hline)
  have hvalue : trim (32 :: decimal n) = decimal n := trim_decimal hn
  refine Announces.parse (Or.inr ⟨32 :: decimal n, ?_, ?_, ?_⟩)
  · rw [crlfLines_joinLines hplain (List.cons_ne_nil _ _)]
    refine ⟨[text "Content-Type: " ++ contentType], text "Content-Length: " ++ decimal n, _, rfl,
      fun line hline => ?_, text "Content-Length", rfl, by decide, by decide⟩
    -- the line before has another name
    rw [List.mem_singleton.mp hline]
    refine contentLengthOf_eq_none.mp ?_
    have hcolon := search_singleton (show (58 : UInt8) ∉ text "Content-Type" by decide)
      (32 :: contentType)
    unfold contentLengthOf
    rw [show text "Content-Type: " ++ contentType = text "Content-Type" ++ 58 :: 32 :: contentType
      from rfl, hcolon]
    simp only [List.take_left]
    exact if_neg (by decide)
  · rw [hvalue]
    exact numeral_decimal hn
  · rw [hvalue, decimalValue_decimal]

/-- The status code in the first line. -/
theorem code_of_line (hcode : code < 2 ^ 64) (rest : Bytes) :
    decimalValue (((text "HTTP/1.1 " ++ decimal code ++ text " " ++ rest).drop 9).takeWhile isDigit)
      = code := by
  rw [List.append_assoc, List.append_assoc,
    List.drop_left' (show (text "HTTP/1.1 ").length = 9 from by decide),
    List.takeWhile_append_of_pos (decimal_digits hcode)]
  show decimalValue (decimal code ++ (32 :: rest).takeWhile isDigit) = code
  rw [List.takeWhile_cons_of_neg (by decide), List.append_nil, decimalValue_decimal]

/-- **A client reads a response**, as far as the body has come. -/
theorem readResponse_lines (hcode : code < 2 ^ 64) (hn : n < 2 ^ 64) (htype : 13 ∉ contentType)
    (part : Bytes) :
    readResponse (joinLines (responseLines code contentType n) ++ (crlf ++ crlf) ++ part)
      = if part.length < n then none else some (code, part.take n) := by
  have hplain := responseLines_plain hcode hn htype
  have hblank := search_blank_joinLines part hplain (List.cons_ne_nil _ _)
  have hannounce := responseLines_announce hcode hn htype
  obtain ⟨first, hfirst⟩ : ∃ first, first
      = text "HTTP/1.1 " ++ decimal code ++ text " " ++ reasonPhrase code := ⟨_, rfl⟩
  obtain ⟨hplainFirst, -⟩ := hplain first (hfirst ▸ List.mem_cons_self)
  have hjoin : joinLines (responseLines code contentType n)
      = first ++ crlf ++ joinLines (responseLines code contentType n).tail := by
    rw [hfirst]
    rfl
  generalize joinLines (responseLines code contentType n).tail = rest at hannounce hjoin
  rw [hjoin] at hblank ⊢
  have hsplit : first ++ crlf ++ rest ++ (crlf ++ crlf) ++ part
      = first ++ crlf ++ (rest ++ ((crlf ++ crlf) ++ part)) := by
    simp only [List.append_assoc]
  have hline : search crlf (first ++ crlf ++ rest ++ (crlf ++ crlf) ++ part)
      = some first.length := by
    rw [hsplit]
    exact search_crlf_line hplainFirst _
  have hheaders : headersOf (first ++ crlf ++ rest ++ (crlf ++ crlf) ++ part) first.length
      (first ++ crlf ++ rest).length = rest := by
    unfold headersOf
    rw [hsplit, List.drop_left' (show (first ++ crlf).length = first.length + 2 from
      List.length_append), List.length_append,
      show (first ++ crlf).length = first.length + 2 from List.length_append,
      Nat.add_sub_cancel_left, List.take_left]
  have hbody : (first ++ crlf ++ rest ++ (crlf ++ crlf) ++ part).drop
      ((first ++ crlf ++ rest).length + 4) = part := List.drop_left' List.length_append
  have htake : (first ++ crlf ++ rest ++ (crlf ++ crlf) ++ part).take first.length = first := by
    rw [hsplit, List.append_assoc, List.take_left]
  have hlength : (first ++ crlf ++ rest ++ (crlf ++ crlf) ++ part).length
      = (first ++ crlf ++ rest).length + 4 + part.length := by
    rw [List.length_append, List.length_append]
    rfl
  unfold readResponse
  rw [hline, hblank]
  dsimp only [Option.bind_eq_bind, Option.bind_some]
  rw [hheaders, hannounce, Option.bind_some, hlength, hbody, htake, hfirst, code_of_line hcode]
  by_cases hshort : part.length < n
  · rw [if_pos hshort, if_pos (Nat.add_lt_add_left hshort _)]
  · rw [if_neg hshort, if_neg (fun hlt => hshort (Nat.lt_of_add_lt_add_left hlt))]

/-- **No beginning of a response is a response**, and all of it is the one that was
meant. -/
theorem readResponse_take {body : Bytes} (hcode : code < 2 ^ 64) (hbody : body.length < 2 ^ 64)
    (htype : 13 ∉ contentType) {k : Nat}
    (hk : k ≤ (buildResponse code body contentType).length) :
    readResponse ((buildResponse code body contentType).take k)
      = if k = (buildResponse code body contentType).length then some (code, body) else none := by
  have hplain := responseLines_plain hcode hbody htype
  have hread := readResponse_lines hcode hbody htype
  have hblank := search_blank_joinLines body hplain (List.cons_ne_nil _ _)
  rw [buildResponse_eq] at hk ⊢
  generalize joinLines (responseLines code contentType body.length) = lines at *
  have hlength : (lines ++ (crlf ++ crlf) ++ body).length = lines.length + 4 + body.length := by
    rw [List.length_append, List.length_append]
    rfl
  rw [hlength] at hk ⊢
  by_cases hend : lines.length + 4 ≤ k
  · -- the lines are there, and part of the body
    have htake : (lines ++ (crlf ++ crlf) ++ body).take k
        = lines ++ (crlf ++ crlf) ++ body.take (k - (lines.length + 4)) := by
      rw [List.take_append, List.take_of_length_le (by rw [List.length_append]; exact hend),
        List.length_append]
      rfl
    rw [htake, hread, List.length_take]
    by_cases hall : k = lines.length + 4 + body.length
    · rw [if_pos hall, if_neg (by omega), List.take_take, List.take_of_length_le (by omega)]
    · rw [if_neg hall, if_pos (by omega)]
  · -- the blank line is not there yet
    rw [if_neg (by omega)]
    have hnone : search (crlf ++ crlf) ((lines ++ (crlf ++ crlf) ++ body).take k) = none := by
      by_contra hsome
      obtain ⟨i, hi⟩ := Option.ne_none_iff_exists'.mp hsome
      have hfit := (search_eq_some_iff.mp hi).end_le
      have hwhole := search_append hi ((lines ++ (crlf ++ crlf) ++ body).drop k)
      rw [List.take_append_drop, hblank] at hwhole
      obtain rfl := Option.some.inj hwhole
      rw [List.length_take, show (crlf ++ crlf).length = 4 from rfl] at hfit
      omega
    unfold readResponse
    rw [hnone]
    cases search crlf ((lines ++ (crlf ++ crlf) ++ body).take k) <;> rfl

end Lines

/-! ## §5. Sending. -/

/-- **`SendAll` sends a beginning**, and all of it just if it returns true. -/
theorem sendAll_take : ∀ (sends : List SendResult) (data : Bytes), ∃ k ≤ data.length,
    (sendAll sends data).2 = data.take k ∧
      ((sendAll sends data).1 = some true ↔ k = data.length) := by
  intro sends
  induction sends with
  | nil =>
      intro data
      cases data with
      | nil => exact ⟨0, Nat.le_refl _, rfl, iff_of_true rfl rfl⟩
      | cons c data => exact ⟨0, Nat.zero_le _, rfl, iff_of_false nofun nofun⟩
  | cons result sends ih =>
      intro data
      cases data with
      | nil => exact ⟨0, Nat.le_refl _, rfl, iff_of_true rfl rfl⟩
      | cons c data =>
          cases result with
          | fails | brokenPipe => exact ⟨0, Nat.zero_le _, rfl, iff_of_false nofun nofun⟩
          | takes n =>
              unfold sendAll
              by_cases hn : n = 0
              · rw [if_pos hn]
                exact ⟨0, Nat.zero_le _, rfl, iff_of_false nofun nofun⟩
              · rw [if_neg hn]
                obtain ⟨k, hk, hsent, hdone⟩ := ih ((c :: data).drop n)
                rw [List.length_drop] at hk hdone
                dsimp only
                rw [hsent]
                -- a `send` that takes more than there is takes all
                by_cases hall : n ≤ (c :: data).length
                · refine ⟨n + k, by omega, ?_, hdone.trans (by omega)⟩
                  rw [← List.take_add]
                · refine ⟨(c :: data).length, Nat.le_refl _, ?_, hdone.trans (by omega)⟩
                  rw [List.drop_eq_nil_of_le (by omega), List.take_nil, List.append_nil,
                    List.take_of_length_le (by omega), List.take_length]

/-- The process is still there, unless a connection is closed too early. -/
theorem sendAll_returns : ∀ {sends : List SendResult}, .brokenPipe ∉ sends → ∀ data : Bytes,
    (sendAll sends data).1 ≠ none := by
  intro sends
  induction sends with
  | nil => intro _ data; cases data <;> exact nofun
  | cons result sends ih =>
      intro h data
      rw [List.mem_cons, not_or] at h
      cases data with
      | nil => exact nofun
      | cons c data =>
          cases result with
          | brokenPipe => exact absurd rfl h.1
          | fails => exact nofun
          | takes n =>
              unfold sendAll
              by_cases hn : n = 0
              · rw [if_pos hn]
                exact nofun
              · rw [if_neg hn]
                exact ih h.2 _

/-- **A client reads what was meant, or nothing**: the response if `SendAll`
succeeds, and else no response, whatever part of it was sent. -/
theorem client_reads (code : Nat) (body : Bytes) (sends : List SendResult)
    (hcode : code < 2 ^ 64) (hbody : body.length < 2 ^ 64) :
    readResponse (sendAll sends (buildResponse code body applicationJson)).2
      = if (sendAll sends (buildResponse code body applicationJson)).1 = some true
        then some (code, body) else none := by
  obtain ⟨k, hk, hsent, hdone⟩ := sendAll_take sends (buildResponse code body applicationJson)
  rw [hsent, readResponse_take hcode hbody (by decide) hk]
  by_cases hall : k = (buildResponse code body applicationJson).length
  · rw [if_pos hall, if_pos (hdone.mpr hall)]
  · rw [if_neg hall, if_neg (fun h => hall (hdone.mp h))]

/-- Two calls of `send`; before the second the client is gone. -/
theorem client_reads_cut :
    readResponse (sendAll [.takes 100, .brokenPipe]
      (buildResponse 200 [1, 2] applicationJson)).2 = none := by
  have hread := client_reads 200 [1, 2] [.takes 100, .brokenPipe] (by decide) (by decide)
  rwa [show (sendAll [.takes 100, .brokenPipe] (buildResponse 200 [1, 2] applicationJson)).1
    = none from by decide +kernel] at hread

end Api

end KvEngine
