/-
  KvEngine.Api.Server
  ───────────────────
  **`RestServer::HandleClient`**: a client served, from its first byte to the
  last one sent.

  The server is a map with endpoints.  `Answers` says what each request is
  answered and what it does to the map: a `PUT` or `DELETE` changes it, but
  where the log refuses the change or there is nothing to delete.
  `clients_served` extends this to clients served one after another, whatever
  the network does with their requests and their answers, as long as the process
  is there.
-/
import KvEngine.Api.RangeScan
import KvEngine.Api.Response
import KvEngine.Engine.Refusal

namespace KvEngine

open Lib

namespace Api

/-! ## §1. The code. -/

/-- A connection: what `recv` gives and what `send` does, call by call. -/
structure Client where
  chunks : List Bytes
  sends : List SendResult
  deriving DecidableEq, Repr

/-- `SendAll` at the end of `HandleClient`: the bytes the client gets, if the process
is still there. -/
def respond (client : Client) (response : Bytes) : Option Bytes :=
  let (returned, sent) := sendAll client.sends response
  returned.map (fun _ => sent)

/-- The bytes the client gets, and the engine behind it. -/
def handleClient (env : Env) (memoryUsage : BPlusTree → Nat) (maxBodySize : Nat)
    (engine : KVEngine) (client : Client) : Option (Bytes × KVEngine) := do
  match ← receiveRequest maxBodySize 400 client.chunks with
  | .error parseError =>
      let body := errorJson
        (text (if parseError = 413 then "request body too large" else "malformed HTTP request"))
      let received ← respond client (buildResponse parseError body applicationJson)
      some (received, engine)
  | .ok request =>
      let ((statusCode, body), engine) ← handleRequest env memoryUsage engine request
      let received ← respond client (buildResponse statusCode body applicationJson)
      some (received, engine)

/-! ## §2. What the server is for. -/

/-- The answer to a request to the engine `e`, and the map behind it.  Of the engine
it takes the map, the refusals of its log and the figures of `/stats`. -/
inductive Answers (env : Env) (memoryUsage : BPlusTree → Nat) (e : KVEngine)
    (request : HttpRequest) : Nat → Bytes → RefMap → Prop
  | found {key value : Bytes} (h : ForKey request (text "GET") key)
      (hm : e.mapOf key = some value) :
      Answers env memoryUsage e request 200 (keyValueJson key value) e.mapOf
  | notFound {key : Bytes} (h : ForKey request (text "GET") key) (hm : e.mapOf key = none) :
      Answers env memoryUsage e request 404
        (errorJson (text (Status.notFound "Key not found").toString)) e.mapOf
  | stored {key : Bytes} (h : ForKey request (text "PUT") key)
      (hlog : e.putRefusal env key request.body = none) :
      Answers env memoryUsage e request 200 (changedJson key)
        (Function.update e.mapOf key (some request.body))
  | deleted {key : Bytes} (h : ForKey request (text "DELETE") key)
      (hlog : e.deleteRefusal env key = none) (hm : e.mapOf key ≠ none) :
      Answers env memoryUsage e request 200 (changedJson key) (Function.update e.mapOf key none)
  | absent {key : Bytes} (h : ForKey request (text "DELETE") key)
      (hlog : e.deleteRefusal env key = none) (hm : e.mapOf key = none) :
      Answers env memoryUsage e request 404
        (errorJson (text (Status.notFound "Key not found").toString)) e.mapOf
  /-- The log refuses the change, with this status. -/
  | refused {key : Bytes} {s : Status}
      (h : ForKey request (text "PUT") key ∧ e.putRefusal env key request.body = some s ∨
        ForKey request (text "DELETE") key ∧ e.deleteRefusal env key = some s)
      (hs : s.ok = false) :
      Answers env memoryUsage e request (statusHttpCode s) (errorJson (text s.toString)) e.mapOf
  | listed {start limit : Bytes} {es : List (Bytes × Bytes)}
      (hmethod : request.method = text "GET")
      (hquery : parseRangeQuery request.target = .ok (start, limit))
      (hsorted : es.Pairwise (fun a b => a.1 < b.1))
      (hmem : ∀ key value, (key, value) ∈ es ↔
        e.mapOf key = some value ∧ start ≤ key ∧ key < limit) :
      Answers env memoryUsage e request 200 (rangeJson es) e.mapOf
  | badQuery {error : Bytes} (hmethod : request.method = text "GET")
      (htarget : scanPrefix <+: request.target)
      (hquery : parseRangeQuery request.target = .error error) :
      Answers env memoryUsage e request 400 (errorJson error) e.mapOf
  | badKey {s : Bytes} (hmethod : request.method ≠ text "OPTIONS") (hs : s ≠ [])
      (htarget : request.target = keyPrefix ++ s)
      (hkey : ∀ key, decodePathComponent s = some key → key = []) :
      Answers env memoryUsage e request 400 (errorJson (text "invalid key encoding")) e.mapOf
  | badMethod {method key : Bytes} (h : ForKey request method key)
      (hmethod : ∀ known ∈ ["GET", "PUT", "DELETE", "OPTIONS"], method ≠ text known) :
      Answers env memoryUsage e request 405 (errorJson (text "method not allowed")) e.mapOf
  | options (hmethod : request.method = text "OPTIONS") :
      Answers env memoryUsage e request 200 (text "\x7b\x7d") e.mapOf
  | health (hmethod : request.method = text "GET") (htarget : request.target = text "/health") :
      Answers env memoryUsage e request 200 (text "\x7b\"status\":\"ok\"\x7d") e.mapOf
  /-- The statistics tell how many keys there are. -/
  | stats (hmethod : request.method = text "GET") (htarget : request.target = text "/stats")
      (hkeys : {key | e.mapOf key ≠ none}.encard = e.tree.size) :
      Answers env memoryUsage e request 200 (statsJson memoryUsage e) e.mapOf
  | flushed (hmethod : request.method = text "POST") (htarget : request.target = text "/flush") :
      Answers env memoryUsage e request
        (statusResponse (e.flush env).1 (text "\x7b\"status\":\"ok\"\x7d")).1
        (statusResponse (e.flush env).1 (text "\x7b\"status\":\"ok\"\x7d")).2 e.mapOf
  | synced (hmethod : request.method = text "POST") (htarget : request.target = text "/sync") :
      Answers env memoryUsage e request
        (statusResponse (e.sync env).1 (text "\x7b\"status\":\"ok\"\x7d")).1
        (statusResponse (e.sync env).1 (text "\x7b\"status\":\"ok\"\x7d")).2 e.mapOf
  | noEndpoint (hoptions : request.method ≠ text "OPTIONS")
      (hkey : ∀ s, s ≠ [] → request.target ≠ keyPrefix ++ s)
      (hget : request.method = text "GET" → request.target ≠ text "/health" ∧
        request.target ≠ text "/stats" ∧ ¬ scanPrefix <+: request.target)
      (hpost : request.method = text "POST" → request.target ≠ text "/flush" ∧
        request.target ≠ text "/sync") :
      Answers env memoryUsage e request 404 (errorJson (text "endpoint not found")) e.mapOf

/-- What is meant for a client. -/
inductive Outcome (env : Env) (memoryUsage : BPlusTree → Nat) (maxBodySize : Nat) (e : KVEngine)
    (client : Client) : Nat → Bytes → RefMap → Prop
  | answer {request : HttpRequest} {code : Nat} {body : Bytes} {m' : RefMap}
      (hreceive : receiveRequest maxBodySize 400 client.chunks = some (.ok request))
      (h : Answers env memoryUsage e request code body m') :
      Outcome env memoryUsage maxBodySize e client code body m'
  | malformed (hreceive : receiveRequest maxBodySize 400 client.chunks = some (.error 400)) :
      Outcome env memoryUsage maxBodySize e client 400
        (errorJson (text "malformed HTTP request")) e.mapOf
  | tooLarge (hreceive : receiveRequest maxBodySize 400 client.chunks = some (.error 413)) :
      Outcome env memoryUsage maxBodySize e client 413
        (errorJson (text "request body too large")) e.mapOf

/-- The client gets a beginning of what is meant for it; it reads that, once all of
it is there, and nothing before.  The engine behind it has the map that is meant. -/
def Serves (env : Env) (memoryUsage : BPlusTree → Nat) (maxBodySize : Nat) (e : KVEngine)
    (client : Client) (received : Bytes) (e' : KVEngine) : Prop :=
  handleClient env memoryUsage maxBodySize e client = some (received, e') ∧
  ∃ code body, Outcome env memoryUsage maxBodySize e client code body e'.mapOf ∧
    received <+: buildResponse code body applicationJson ∧
    (body.length < 2 ^ 64 → readResponse received =
      if received = buildResponse code body applicationJson then some (code, body) else none)

/-- The log has no room for the record of the request. -/
def Overruns (env : Env) (e : KVEngine) (request : HttpRequest) : Prop :=
  ∃ key w, e.wal = some w ∧
    (ForKey request (text "PUT") key ∧ w.put env key request.body e.sequenceNumber = none ∨
      ForKey request (text "DELETE") key ∧ w.delete env key e.sequenceNumber = none)

/-- The client closes its connection before it has all of what is meant for it. -/
def Breaks (env : Env) (memoryUsage : BPlusTree → Nat) (maxBodySize : Nat) (e : KVEngine)
    (client : Client) : Prop :=
  ∃ code body m', Outcome env memoryUsage maxBodySize e client code body m' ∧
    (sendAll client.sends (buildResponse code body applicationJson)).1 = none

/-! ## §3. A request. -/

variable {env : Env} {options : KVEngineOptions} {o : BTreeOptions} {e e' : KVEngine} {m : RefMap}
  {memoryUsage : BPlusTree → Nat} {request : HttpRequest}

theorem statusHttpCode_lt (status : Status) : statusHttpCode status < 2 ^ 64 := by
  unfold statusHttpCode
  split <;> decide

/-- The call a request makes that may change the engine. -/
inductive Changes (request : HttpRequest) : EngineOp → Prop
  | put {key : Bytes} (h : ForKey request (text "PUT") key) :
      Changes request (.put key request.body)
  | delete {key : Bytes} (h : ForKey request (text "DELETE") key) : Changes request (.delete key)
  | flush : Changes request .flush
  | sync : Changes request .sync

/-- The request leaves the engine alone, or makes one such call on it. -/
inductive Moves (env : Env) (request : HttpRequest) (e : KVEngine) : KVEngine → Prop
  | stays : Moves env request e e
  | calls {op : EngineOp} {reply : TreeReply} {e' : KVEngine} (h : Changes request op)
      (hrun : e.apply env op = some (reply, e')) : Moves env request e e'

theorem Moves.reached (hmoves : Moves env request e e') (h : KVEngine.Reached env options e) :
    KVEngine.Reached env options e' := by
  cases hmoves with
  | stays => exact h
  | calls _ hrun => exact h.call hrun

/-- The request is answered as it should be, and at most one call is made for it. -/
def Answered (env : Env) (memoryUsage : BPlusTree → Nat) (e : KVEngine) (request : HttpRequest)
    (result : Option ((Nat × Bytes) × KVEngine)) : Prop :=
  ∃ code body e', result = some ((code, body), e') ∧ Moves env request e e' ∧
    Answers env memoryUsage e request code body e'.mapOf

/-- **The endpoint for one key.** -/
theorem handleKey_answers (h : KVEngine.Reached env options e) {method key : Bytes}
    (hkey : ForKey request method key) (hoptions : method ≠ text "OPTIONS") :
    Answered env memoryUsage e request (handleKey env e method key request.body) ∨
      Overruns env e request ∧ handleKey env e method key request.body = none := by
  obtain ⟨-, m, hmodels⟩ := h.holdsMap
  have hm := KVEngine.mapOf_eq hmodels
  unfold handleKey
  by_cases hget : method = text "GET"
  · subst hget
    refine Or.inl ?_
    rw [if_pos rfl, show e.get key = e.tree.get key from rfl, hmodels.get key]
    cases hvalue : m key with
    | some value => exact ⟨_, _, e, rfl, .stays, .found hkey (hm ▸ hvalue)⟩
    | none => exact ⟨_, _, e, rfl, .stays, .notFound hkey (hm ▸ hvalue)⟩
  rw [if_neg hget]
  by_cases hput : method = text "PUT"
  · subst hput
    rw [if_pos rfl]
    obtain ⟨⟨w, hwal, hlog⟩, hnone⟩ | ⟨s, e', hrun, hcase⟩ :=
      KVEngine.put_total env hmodels hkey.nonempty request.body
    · exact Or.inr ⟨⟨key, w, hwal, Or.inl ⟨hkey, hlog⟩⟩, by rw [hnone]; rfl⟩
    have hcall : e.apply env (.put key request.body) = some ((s, none), e') := by
      rw [KVEngine.apply, hrun]
      rfl
    refine Or.inl ⟨_, _, e', by rw [hrun]; rfl, .calls (.put hkey) hcall, ?_⟩
    rcases hcase with ⟨hrefusal, hs, hmap⟩ | ⟨hlog, rfl, hmap⟩
    · rw [if_neg (Bool.eq_false_iff.mp hs), hmap, ← hm]
      exact .refused (Or.inl ⟨hkey, hrefusal⟩) hs
    · rw [hmap, ← hm]
      exact .stored hkey hlog
  rw [if_neg hput]
  by_cases hdelete : method = text "DELETE"
  · subst hdelete
    rw [if_pos rfl]
    obtain ⟨⟨w, hwal, hlog⟩, hnone⟩ | ⟨s, e', hrun, hcase⟩ :=
      KVEngine.delete_total env hmodels key
    · exact Or.inr ⟨⟨key, w, hwal, Or.inr ⟨hkey, hlog⟩⟩, by rw [hnone]; rfl⟩
    have hcall : e.apply env (.delete key) = some ((s, none), e') := by
      rw [KVEngine.apply, hrun]
      rfl
    refine Or.inl ⟨_, _, e', by rw [hrun]; rfl, .calls (.delete hkey) hcall, ?_⟩
    rcases hcase with ⟨hrefusal, hs, hmap⟩ | ⟨hlog, habsent, rfl, hmap⟩ | ⟨hlog, hbound, rfl, hmap⟩
    · rw [if_neg (Bool.eq_false_iff.mp hs), hmap, ← hm]
      exact .refused (Or.inr ⟨hkey, hrefusal⟩) hs
    · rw [hmap, ← hm]
      exact .absent hkey hlog (hm ▸ habsent)
    · rw [hmap, ← hm]
      exact .deleted hkey hlog (hm ▸ hbound)
  · rw [if_neg hdelete]
    refine Or.inl ⟨_, _, e, rfl, .stays, .badMethod hkey ?_⟩
    simp only [List.forall_mem_cons]
    exact ⟨hget, hput, hdelete, hoptions, fun _ hmem => absurd hmem List.not_mem_nil⟩

/-- **Every request is answered as it should be.** -/
theorem handleRequest_answers (h : KVEngine.Reached env options e)
    (hcmp : keyOrder options.btreeOptions.comparator = bytewiseComparator)
    (request : HttpRequest) :
    Answered env memoryUsage e request (handleRequest env memoryUsage e request) ∨
      Overruns env e request ∧ handleRequest env memoryUsage e request = none := by
  obtain ⟨-, m, hmodels⟩ := h.holdsMap
  have hm := KVEngine.mapOf_eq hmodels
  unfold handleRequest
  by_cases hoptions : request.method = text "OPTIONS"
  · rw [if_pos hoptions]
    exact Or.inl ⟨_, _, e, rfl, .stays, .options hoptions⟩
  rw [if_neg hoptions]
  by_cases hhealth : request.target = text "/health" ∧ request.method = text "GET"
  · rw [if_pos hhealth]
    exact Or.inl ⟨_, _, e, rfl, .stays, .health hhealth.2 hhealth.1⟩
  rw [if_neg hhealth]
  by_cases hstats : request.target = text "/stats" ∧ request.method = text "GET"
  · rw [if_pos hstats]
    exact Or.inl ⟨_, _, e, rfl, .stays, .stats hstats.2 hstats.1 (hm ▸ hmodels.size)⟩
  rw [if_neg hstats]
  by_cases hflush : request.target = text "/flush" ∧ request.method = text "POST"
  · rw [if_pos hflush]
    refine Or.inl ⟨_, _, (e.flush env).2, rfl, .calls .flush rfl, ?_⟩
    rw [KVEngine.mapOf_congr (Thread.flush_tree env e)]
    exact .flushed hflush.2 hflush.1
  rw [if_neg hflush]
  by_cases hsync : request.target = text "/sync" ∧ request.method = text "POST"
  · rw [if_pos hsync]
    refine Or.inl ⟨_, _, (e.sync env).2, rfl, .calls .sync rfl, ?_⟩
    rw [KVEngine.mapOf_congr (Thread.sync_tree env e)]
    exact .synced hsync.2 hsync.1
  rw [if_neg hsync]
  by_cases hscan : request.method = text "GET" ∧ scanPrefix <+: request.target
  · rw [if_pos hscan]
    refine Or.inl ?_
    cases hquery : parseRangeQuery request.target with
    | error error => exact ⟨_, _, e, rfl, .stays, .badQuery hscan.1 hscan.2 hquery⟩
    | ok range =>
        obtain ⟨start, limit⟩ := range
        obtain ⟨es, hsorted, hmem, hjson⟩ := rangeScanJson_spec h hcmp start limit
        refine ⟨200, rangeJson es, e, by dsimp only; rw [hjson]; rfl, .stays,
          .listed hscan.1 hquery hsorted ?_⟩
        intro key value
        rw [hmem, show e.get key = e.tree.get key from rfl, hmodels.get key, hm]
        cases m key <;> simp [Status.okStatus, Status.notFound]
  rw [if_neg hscan]
  by_cases hkv : keyPrefix <+: request.target ∧ request.target.length > keyPrefix.length
  · rw [if_pos hkv]
    obtain ⟨s, hs⟩ := hkv.1
    have hsome : s ≠ [] := by
      rintro rfl
      rw [← hs, List.append_nil] at hkv
      exact absurd hkv.2 (Nat.lt_irrefl _)
    rw [← hs, List.drop_left]
    cases hdecode : decodePathComponent s with
    | none =>
        exact Or.inl ⟨_, _, e, rfl, .stays, .badKey hoptions hsome hs.symm (fun key hkey => by
          rw [hdecode] at hkey; cases hkey)⟩
    | some key =>
        dsimp only
        by_cases hempty : key.isEmpty = true
        · rw [if_pos hempty]
          refine Or.inl ⟨_, _, e, rfl, .stays, .badKey hoptions hsome hs.symm (fun key' hkey => ?_)⟩
          rw [hdecode] at hkey
          exact Option.some.inj hkey ▸ List.isEmpty_iff.mp hempty
        · rw [if_neg hempty]
          exact handleKey_answers h ⟨rfl, ⟨s, hs.symm, hdecode⟩, by simpa using hempty⟩ hoptions
  · rw [if_neg hkv]
    refine Or.inl ⟨_, _, e, rfl, .stays, .noEndpoint hoptions (fun s hs htarget => hkv ⟨⟨s,
      htarget.symm⟩, ?_⟩) (fun hget => ⟨fun ht => hhealth ⟨ht, hget⟩, fun ht => hstats ⟨ht, hget⟩,
        fun ht => hscan ⟨hget, ht⟩⟩) (fun hpost => ⟨fun ht => hflush ⟨ht, hpost⟩,
          fun ht => hsync ⟨ht, hpost⟩⟩)⟩
    rw [htarget, List.length_append]
    exact Nat.lt_add_of_pos_right (List.length_pos_iff.mpr hs)

/-! ## §4. A client. -/

variable {maxBodySize : Nat} {client : Client} {code : Nat} {body : Bytes} {m' : RefMap}

theorem receiveHeader_error {chunks : List Bytes} (h : receiveHeader 400 chunks = .error code) :
    code = 400 := by
  unfold receiveHeader at h
  split at h
  · exact (Except.error.inj h).symm
  · exact (Except.error.inj h).symm
  · split at h
    · exact (Except.error.inj h).symm
    · split at h
      · exact (Except.error.inj h).symm
      · split at h
        · exact (Except.error.inj h).symm
        · cases h

/-- A request that is not read is malformed or too large. -/
theorem receiveRequest_error {chunks : List Bytes}
    (h : receiveRequest maxBodySize 400 chunks = some (.error code)) : code = 400 ∨ code = 413 := by
  unfold receiveRequest at h
  split at h
  next hheader =>
    obtain rfl := Except.error.inj (Option.some.inj h)
    exact Or.inl (receiveHeader_error hheader)
  · split at h
    · cases h
    · split at h
      · exact Or.inl (Except.error.inj (Option.some.inj h)).symm
      · split at h
        · exact Or.inr (Except.error.inj (Option.some.inj h)).symm
        · dsimp only at h
          split at h
          · exact Or.inl (Except.error.inj (Option.some.inj h)).symm
          · cases h

theorem Answers.code_lt (h : Answers env memoryUsage e request code body m') :
    code < 2 ^ 64 := by
  cases h with
  | refused _ _ | flushed _ _ | synced _ _ => exact statusHttpCode_lt _
  | found _ _ | notFound _ _ | stored _ _ | deleted _ _ _ | absent _ _ _ | listed _ _ _ _
  | badQuery _ _ _ | badKey _ _ _ _ | badMethod _ _ | options _ | health _ _ | stats _ _ _
  | noEndpoint _ _ _ _ => decide

theorem Outcome.code_lt (h : Outcome env memoryUsage maxBodySize e client code body m') :
    code < 2 ^ 64 := by
  cases h with
  | answer _ h => exact h.code_lt
  | malformed _ | tooLarge _ => decide

/-- A request that is not read. -/
theorem handleClient_error {parseError : Nat}
    (hreceive : receiveRequest maxBodySize 400 client.chunks = some (.error parseError)) :
    handleClient env memoryUsage maxBodySize e client = (respond client (buildResponse parseError
      (errorJson (text (if parseError = 413 then "request body too large"
        else "malformed HTTP request"))) applicationJson)).map (fun received => (received, e)) := by
  unfold handleClient
  rw [hreceive, Option.bind_eq_bind, Option.bind_some, Option.map_eq_bind]
  rfl

theorem handleClient_ok
    (hreceive : receiveRequest maxBodySize 400 client.chunks = some (.ok request)) :
    handleClient env memoryUsage maxBodySize e client
      = (handleRequest env memoryUsage e request).bind (fun r =>
        (respond client (buildResponse r.1.1 r.1.2 applicationJson)).map
          (fun received => (received, r.2))) := by
  unfold handleClient
  rw [hreceive, Option.bind_eq_bind, Option.bind_some]
  simp only [Option.map_eq_bind]
  rfl

theorem respond_eq (client : Client) (response : Bytes) :
    respond client response = (sendAll client.sends response).1.map
      (fun _ => (sendAll client.sends response).2) := rfl

/-- **What is meant for a client** is sent, as far as the socket takes it, or the
process has ended with its connection. -/
theorem Outcome.serves (h : Outcome env memoryUsage maxBodySize e client code body e'.mapOf)
    (hrun : handleClient env memoryUsage maxBodySize e client
      = (respond client (buildResponse code body applicationJson)).map (fun r => (r, e'))) :
    (∃ received, handleClient env memoryUsage maxBodySize e client = some (received, e') ∧
        Serves env memoryUsage maxBodySize e client received e') ∨
      Breaks env memoryUsage maxBodySize e client ∧
        handleClient env memoryUsage maxBodySize e client = none := by
  obtain ⟨k, hk, hsent, -⟩ := sendAll_take client.sends (buildResponse code body applicationJson)
  cases hreturned : (sendAll client.sends (buildResponse code body applicationJson)).1 with
  | none =>
      refine Or.inr ⟨⟨code, body, _, h, hreturned⟩, ?_⟩
      rw [hrun, respond_eq, hreturned]
      rfl
  | some returned =>
      have hserved : handleClient env memoryUsage maxBodySize e client
          = some ((sendAll client.sends (buildResponse code body applicationJson)).2, e') := by
        rw [hrun, respond_eq, hreturned]
        rfl
      refine Or.inl ⟨_, hserved, hserved, code, body, h, hsent ▸ List.take_prefix _ _,
        fun hbody => ?_⟩
      rw [hsent, readResponse_take h.code_lt hbody (by decide) hk]
      have hall : k = (buildResponse code body applicationJson).length ↔
          (buildResponse code body applicationJson).take k
            = buildResponse code body applicationJson := by
        rw [List.take_eq_self_iff]
        omega
      simp only [hall]

/-- **One client** is served, and the server goes on with an engine; or it is left
without an answer, by a request line with no header behind it, a record for which the
log has no room, or a connection it closes too early. -/
theorem handleClient_serves (h : KVEngine.Reached env options e)
    (hcmp : keyOrder options.btreeOptions.comparator = bytewiseComparator) (client : Client) :
    (∃ received e', handleClient env memoryUsage maxBodySize e client = some (received, e') ∧
        KVEngine.Reached env options e' ∧
        Serves env memoryUsage maxBodySize e client received e') ∨
      handleClient env memoryUsage maxBodySize e client = none ∧
        (Bare client.chunks ∨
          (∃ request, receiveRequest maxBodySize 400 client.chunks = some (.ok request) ∧
            Overruns env e request) ∨
          Breaks env memoryUsage maxBodySize e client) := by
  cases hreceive : receiveRequest maxBodySize 400 client.chunks with
  | none =>
      refine Or.inr ⟨by rw [handleClient, hreceive]; rfl, Or.inl ?_⟩
      by_contra hbare
      have hsome := receiveRequest_isSome maxBodySize 400 hbare
      rw [hreceive] at hsome
      cases hsome
  | some result =>
      cases result with
      | error parseError =>
          have hserves : (∃ received, handleClient env memoryUsage maxBodySize e client
                = some (received, e) ∧ Serves env memoryUsage maxBodySize e client received e) ∨
              Breaks env memoryUsage maxBodySize e client ∧
                handleClient env memoryUsage maxBodySize e client = none := by
            rcases receiveRequest_error hreceive with rfl | rfl
            · exact (Outcome.malformed hreceive).serves (handleClient_error hreceive)
            · exact (Outcome.tooLarge hreceive).serves (handleClient_error hreceive)
          rcases hserves with ⟨received, hserved, hserves⟩ | ⟨hbreaks, hnone⟩
          · exact Or.inl ⟨received, e, hserved, h, hserves⟩
          · exact Or.inr ⟨hnone, Or.inr (Or.inr hbreaks)⟩
      | ok request =>
          have hrun := @handleClient_ok env e memoryUsage _ maxBodySize client hreceive
          rcases @handleRequest_answers env options e memoryUsage h hcmp request with
            ⟨code, body, e', heq, hmoves, hanswer⟩ | ⟨hfull, hnone⟩
          · rw [heq, Option.bind_some] at hrun
            rcases (Outcome.answer hreceive hanswer).serves hrun with
              ⟨received, hserved, hserves⟩ | ⟨hbreaks, hnone⟩
            · exact Or.inl ⟨received, e', hserved, hmoves.reached h, hserves⟩
            · exact Or.inr ⟨hnone, Or.inr (Or.inr hbreaks)⟩
          · rw [hnone, Option.bind_none] at hrun
            exact Or.inr ⟨hrun, Or.inr (Or.inl ⟨request, rfl, hfull⟩)⟩

/-- **Clients served one after another** are answered by a map behind a log, whatever
chunks their requests come in and wherever their connections fail: each change of the
map is one that a request asks for, and each is made, but those that the log refuses.
Three kinds of clients are left without an answer. -/
theorem clients_served (env : Env) (options : KVEngineOptions) (memoryUsage : BPlusTree → Nat)
    (maxBodySize : Nat) {e e' : KVEngine} {clients : List Client} {received : List Bytes}
    (h : KVEngine.Reached env options e)
    (hcmp : keyOrder options.btreeOptions.comparator = bytewiseComparator)
    (hrun : run? (handleClient env memoryUsage maxBodySize) e clients = some (received, e')) :
    Chain (Serves env memoryUsage maxBodySize) e clients received e' ∧
      ∀ client, handleClient env memoryUsage maxBodySize e' client = none →
        Bare client.chunks ∨
          (∃ request, receiveRequest maxBodySize 400 client.chunks = some (.ok request) ∧
            Overruns env e' request) ∨
          Breaks env memoryUsage maxBodySize e' client := by
  obtain ⟨hreached, hchain⟩ := @run?_chain _ _ _ _ (handleClient env memoryUsage maxBodySize)
    (KVEngine.Reached env options) id (Serves env memoryUsage maxBodySize)
    (fun e client received e' hs hstep => by
      rcases @handleClient_serves env options e memoryUsage maxBodySize hs hcmp client with
        ⟨received₁, e₁, hserved, hreached, hserves⟩ | ⟨hnone, -⟩
      · obtain ⟨rfl, rfl⟩ := Prod.mk.inj (Option.some.inj (hstep.symm.trans hserved))
        exact ⟨hreached, hserves⟩
      · rw [hnone] at hstep
        cases hstep) _ _ _ _ h hrun
  refine ⟨hchain, fun client hnone => ?_⟩
  rcases @handleClient_serves env options e' memoryUsage maxBodySize hreached hcmp client with
    ⟨received₁, e₁, hserved, -⟩ | ⟨-, hwhy⟩
  · rw [hnone] at hserved
    cases hserved
  · exact hwhy

/-- One client puts a value, its request cut in two; another gets it. -/
def putThenGet : List Client :=
  [⟨[text "PUT /kv/a HTTP/1.1\r\nContent-Len", text "gth: 1\r\n\r\n7"],
      [.takes 20, .takes 1000]⟩,
    ⟨[text "GET /kv/%61 HTTP/1.1\r\nHost: h\r\n\r\n"], [.takes 1000]⟩]

theorem clients_served_put : ∃ (e : KVEngine) (received : List Bytes) (e' : KVEngine),
    KVEngine.new .undisturbed {} {} = some e ∧
    received.map readResponse
      = [some (200, changedJson [97]), some (200, keyValueJson [97] [55])] ∧
    Chain (Serves .undisturbed (fun _ => 0) 10) e putThenGet received e' := by
  have hrun : ((KVEngine.new .undisturbed {} {}).bind (fun e =>
      run? (handleClient .undisturbed (fun _ => 0) 10) e putThenGet)).map
        (fun r => r.1.map readResponse)
      = some [some (200, changedJson [97]), some (200, keyValueJson [97] [55])] := by
    decide +kernel
  obtain ⟨⟨received, e'⟩, hbind, hread⟩ := Option.map_eq_some_iff.mp hrun
  obtain ⟨e, hnew, hclients⟩ := Option.bind_eq_some_iff.mp hbind
  exact ⟨e, received, e', hnew, hread,
    (clients_served .undisturbed {} (fun _ => 0) 10 (.new hnew) rfl hclients).1⟩

end Api

end KvEngine
