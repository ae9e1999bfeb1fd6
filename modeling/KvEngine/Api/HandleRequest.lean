/-
  KvEngine.Api.HandleRequest
  ──────────────────────────
  `HandleRequest`: the endpoints, their status codes and response texts.

  `memoryUsage` stands for `BPlusTree::MemoryUsage`, a sum of capacities and
  object sizes of which only the text of `/stats` depends.

  The second half is about the texts with a key and a value in them: the
  strings end where the value does, so that the texts differ when keys or
  values do.
-/
import KvEngine.Api.Json
import KvEngine.Api.Percent
import KvEngine.Api.Request
import KvEngine.BTree.Iterator
import KvEngine.Engine.KVEngine
import KvEngine.Wal.Writing

namespace KvEngine

open Lib

namespace Api

/-! ## §1. `ParseRangeQuery`. -/

/-- What `std::getline(stream, line, delim)` gives until it fails. -/
def getlines (delim : UInt8) : Bytes → List Bytes
  | [] => []
  | c :: rest =>
      if c = delim then [] :: getlines delim rest
      else
        match getlines delim rest with
        | [] => [[c]]
        | line :: lines => (c :: line) :: lines

/-- The loop over the parameters; an error is its text. -/
def parseParameters (start limit : Bytes) : List Bytes → Except Bytes (Bytes × Bytes)
  | [] => .ok (start, limit)
  | parameter :: rest =>
      if parameter.isEmpty then parseParameters start limit rest
      else
        match search [61] parameter with
        | none => .error (text "invalid query parameter")
        | some equals =>
            let name := parameter.take equals
            let encodedValue := parameter.drop (equals + 1)
            match decodePathComponent encodedValue with
            | none => .error (text "invalid query parameter encoding")
            | some value =>
                if name = text "start" then parseParameters value limit rest
                else if name = text "limit" then parseParameters start value rest
                else parseParameters start limit rest

/-- `"/scan?"`. -/
def scanPrefix : Bytes := [47, 115, 99, 97, 110, 63]

/-- Start and limit; the strings are compared as lists of unsigned bytes. -/
def parseRangeQuery (target : Bytes) : Except Bytes (Bytes × Bytes) :=
  if scanPrefix <+: target then
    match parseParameters [] [] (getlines 38 (target.drop scanPrefix.length)) with
    | .error error => .error error
    | .ok (start, limit) =>
        if start.isEmpty then .error (text "start parameter is required")
        else if limit.isEmpty then .error (text "limit parameter is required")
        else if start ≥ limit then .error (text "start must be less than limit")
        else .ok (start, limit)
  else .error (text "invalid scan endpoint")

/-! ## §2. Response texts. -/

/-- The text with a key and its value. -/
def keyValueJson (key value : Bytes) : Bytes :=
  text "\x7b\"key\":\"" ++ jsonEscape key ++ text "\",\"value\":\"" ++ jsonEscape value ++
    text "\"\x7d"

/-- The text after a change of a key. -/
def changedJson (key : Bytes) : Bytes :=
  text "\x7b\"status\":\"ok\",\"key\":\"" ++ jsonEscape key ++ text "\"\x7d"

/-- The loop of `RangeScanJson`: the status behind it, the text and the count. -/
def rangeItems (tree : BPlusTree) :
    Nat → Iterator → Bytes → Bool → Nat → Option (Status × Bytes × Nat)
  | 0, _, _, _, _ => none
  | fuel + 1, iterator, body, first, count => do
      if ← iterator.valid tree then
        let body := if first then body else body ++ text ","
        let (key, value) ← iterator.entry tree
        let iterator ← iterator.next tree
        rangeItems tree fuel iterator (body ++ keyValueJson key value) false (count + 1)
      else some (iterator.status, body, count)

/-- The status code and the text; the loop has a round for each key. -/
def rangeScanJson (engine : KVEngine) (start limit : Bytes) : Option (Nat × Bytes) := do
  let iterator ← Iterator.new engine.tree (some start) (some limit)
  let (status, body, count) ←
    rangeItems engine.tree (engine.tree.size + 1) iterator (text "\x7b\"items\":[") true 0
  if !status.ok then some (statusHttpCode status, errorJson (text status.toString))
  else some (200, body ++ text "],\"count\":" ++ decimal count ++ text "\x7d")

def statsJson (memoryUsage : BPlusTree → Nat) (engine : KVEngine) : Bytes :=
  let wal := engine.getWalStats
  text "\x7b\"keys\":" ++ decimal engine.tree.size ++
    text ",\"nodes\":" ++ decimal engine.tree.nodeCount ++
    text ",\"height\":" ++ decimal engine.tree.height ++
    text ",\"memory_bytes\":" ++ decimal (memoryUsage engine.tree) ++
    text ",\"wal\":\x7b\"total_writes\":" ++ decimal wal.totalWrites ++
    text ",\"total_bytes_written\":" ++ decimal wal.totalBytesWritten ++
    text ",\"total_syncs\":" ++ decimal wal.totalSyncs ++
    text ",\"current_file_number\":" ++ decimal wal.currentFileNumber ++
    text ",\"current_file_size\":" ++ decimal wal.currentFileSize ++ text "\x7d\x7d"

/-! ## §3. `HandleRequest`. -/

/-- The answer to a call that has only a status. -/
def statusResponse (status : Status) (done : Bytes) : Nat × Bytes :=
  (statusHttpCode status, if status.ok then done else errorJson (text status.toString))

/-- `"/kv/"`. -/
def keyPrefix : Bytes := [47, 107, 118, 47]

/-- The endpoint for one key. -/
def handleKey (env : Env) (engine : KVEngine) (method key body : Bytes) :
    Option ((Nat × Bytes) × KVEngine) :=
  if method = text "GET" then do
    let (status, value) ← engine.get key
    some (statusResponse status (keyValueJson key (value.getD [])), engine)
  else if method = text "PUT" then do
    let (status, engine) ← engine.put env key body
    some (statusResponse status (changedJson key), engine)
  else if method = text "DELETE" then do
    let (status, engine) ← engine.delete env key
    some (statusResponse status (changedJson key), engine)
  else some ((405, errorJson (text "method not allowed")), engine)

/-- The status code and the response text, and the engine behind it. -/
def handleRequest (env : Env) (memoryUsage : BPlusTree → Nat) (engine : KVEngine)
    (request : HttpRequest) : Option ((Nat × Bytes) × KVEngine) :=
  if request.method = text "OPTIONS" then some ((200, text "\x7b\x7d"), engine)
  else if request.target = text "/health" ∧ request.method = text "GET" then
    some ((200, text "\x7b\"status\":\"ok\"\x7d"), engine)
  else if request.target = text "/stats" ∧ request.method = text "GET" then
    some ((200, statsJson memoryUsage engine), engine)
  else if request.target = text "/flush" ∧ request.method = text "POST" then
    let (status, engine) := engine.flush env
    some (statusResponse status (text "\x7b\"status\":\"ok\"\x7d"), engine)
  else if request.target = text "/sync" ∧ request.method = text "POST" then
    let (status, engine) := engine.sync env
    some (statusResponse status (text "\x7b\"status\":\"ok\"\x7d"), engine)
  else if request.method = text "GET" ∧ scanPrefix <+: request.target then
    match parseRangeQuery request.target with
    | .error error => some ((400, errorJson error), engine)
    | .ok (start, limit) =>
        (rangeScanJson engine start limit).map (fun response => (response, engine))
  else if keyPrefix <+: request.target ∧ request.target.length > keyPrefix.length then
    match decodePathComponent (request.target.drop keyPrefix.length) with
    | none => some ((400, errorJson (text "invalid key encoding")), engine)
    | some key =>
        if key.isEmpty then some ((400, errorJson (text "invalid key encoding")), engine)
        else handleKey env engine request.method key request.body
  else some ((404, errorJson (text "endpoint not found")), engine)

/-! ## §4. Requests for a key. -/

/-- The request is for the key, by the method. -/
structure ForKey (request : HttpRequest) (method key : Bytes) : Prop where
  method : request.method = method
  target : ∃ s, request.target = keyPrefix ++ s ∧ decodePathComponent s = some key
  nonempty : key ≠ []

/-- A target with a prefix is not a text that lacks it. -/
theorem target_ne {target start other : Bytes} (h : start <+: target) (hother : ¬ start <+: other) :
    target ≠ other := fun heq => hother (heq ▸ h)

/-- **A request for a key goes to the endpoint for it.** -/
theorem ForKey.handleRequest {request : HttpRequest} {method key : Bytes}
    (h : ForKey request method key) (hmethod : method ≠ text "OPTIONS") (env : Env)
    (memoryUsage : BPlusTree → Nat) (engine : KVEngine) :
    handleRequest env memoryUsage engine request
      = handleKey env engine method key request.body := by
  obtain ⟨s, htarget, hdecode⟩ := h.target
  have hpre : keyPrefix <+: request.target := ⟨s, htarget.symm⟩
  have hlength : request.target.length > keyPrefix.length := by
    cases s with
    | nil => exact absurd (Option.some.inj hdecode).symm h.nonempty
    | cons c s => rw [htarget, List.length_append, List.length_cons]; omega
  have hscan : ¬ scanPrefix <+: request.target := by
    rintro ⟨t, ht⟩
    rw [← ht] at hpre
    exact absurd (List.cons_prefix_cons.mp (List.cons_prefix_cons.mp hpre).2).1 (by decide)
  unfold Api.handleRequest
  rw [h.method, if_neg hmethod,
    if_neg (fun hcase => target_ne hpre (by decide) hcase.1),
    if_neg (fun hcase => target_ne hpre (by decide) hcase.1),
    if_neg (fun hcase => target_ne hpre (by decide) hcase.1),
    if_neg (fun hcase => target_ne hpre (by decide) hcase.1),
    if_neg (fun hcase => hscan hcase.2), if_pos ⟨hpre, hlength⟩, htarget, List.drop_left, hdecode]
  exact if_neg (by simpa using h.nonempty)

/-- A `GET` that finds a value. -/
structure Gets (engine : KVEngine) (request : HttpRequest) (key value : Bytes) : Prop where
  forKey : ForKey request (text "GET") key
  found : ∃ status, engine.get key = some (status, some value) ∧ status.ok = true

/-- A `PUT` that succeeds. -/
structure Puts (env : Env) (engine : KVEngine) (request : HttpRequest) (key : Bytes)
    (engine' : KVEngine) : Prop where
  forKey : ForKey request (text "PUT") key
  stored : ∃ status, engine.put env key request.body = some (status, engine') ∧ status.ok = true

theorem statusHttpCode_ok {status : Status} (h : status.ok = true) :
    statusHttpCode status = 200 := by
  have hcode : status.code = .ok := by simpa [Status.ok] using h
  rw [statusHttpCode, hcode]

theorem statusResponse_ok {status : Status} (h : status.ok = true) (done : Bytes) :
    statusResponse status done = (200, done) := by
  rw [statusResponse, statusHttpCode_ok h, if_pos h]

theorem Gets.handleRequest {engine : KVEngine} {request : HttpRequest} {key value : Bytes}
    (h : Gets engine request key value) (env : Env) (memoryUsage : BPlusTree → Nat) :
    handleRequest env memoryUsage engine request
      = some ((200, keyValueJson key value), engine) := by
  obtain ⟨status, hget, hok⟩ := h.found
  rw [h.forKey.handleRequest (by decide), handleKey, if_pos rfl, hget]
  show some (statusResponse status (keyValueJson key value), engine) = _
  rw [statusResponse_ok hok]

theorem Puts.handleRequest {env : Env} {engine engine' : KVEngine} {request : HttpRequest}
    {key : Bytes} (h : Puts env engine request key engine') (memoryUsage : BPlusTree → Nat) :
    handleRequest env memoryUsage engine request = some ((200, changedJson key), engine') := by
  obtain ⟨status, hput, hok⟩ := h.stored
  rw [h.forKey.handleRequest (by decide), handleKey, if_neg (by decide), if_pos rfl, hput]
  show some (statusResponse status (changedJson key), engine') = _
  rw [statusResponse_ok hok]

/-! ## §5. The strings in the texts. -/

/-- Two texts that begin with a string agree on it. -/
theorem jsonEscape_inj {v v' s s' : Bytes}
    (h : jsonEscape v ++ 34 :: s = jsonEscape v' ++ 34 :: s') : v = v' ∧ s = s' := by
  have hread := readString_jsonEscape v s
  rw [h, readString_jsonEscape v' s'] at hread
  exact (Prod.mk.inj (Option.some.inj hread)).imp Eq.symm Eq.symm

theorem keyValueJson_inj {key key' value value' : Bytes}
    (h : keyValueJson key value = keyValueJson key' value') : key = key' ∧ value = value' := by
  unfold keyValueJson at h
  simp only [List.append_assoc] at h
  obtain ⟨rfl, htail⟩ := jsonEscape_inj (List.append_cancel_left h)
  have hvalue : text ",\"value\":\"" ++ (jsonEscape value ++ text "\"\x7d")
      = text ",\"value\":\"" ++ (jsonEscape value' ++ text "\"\x7d") := htail
  exact ⟨rfl, (jsonEscape_inj (List.append_cancel_left hvalue)).1⟩

theorem changedJson_inj {key key' : Bytes} (h : changedJson key = changedJson key') :
    key = key' := by
  unfold changedJson at h
  simp only [List.append_assoc] at h
  exact (jsonEscape_inj (List.append_cancel_left h)).1

/-- **Escaped strings are confined and come back**, and a response text tells
which key, and which value, it is about. -/
theorem responses_confined :
    (∀ v, (∀ c ∈ jsonEscape v, 0x20 ≤ c) ∧ bareQuote (jsonEscape v) = false ∧
      decodeString (jsonEscape v) = some v ∧
        ∀ rest, readString (jsonEscape v ++ 34 :: rest) = some (v, rest)) ∧
      (∀ env memoryUsage engine request key value, Gets engine request key value →
        handleRequest env memoryUsage engine request
          = some ((200, keyValueJson key value), engine)) ∧
      (∀ key value key' value', keyValueJson key value = keyValueJson key' value' →
        key = key' ∧ value = value') ∧
      (∀ env memoryUsage engine engine' request key, Puts env engine request key engine' →
        handleRequest env memoryUsage engine request
          = some ((200, changedJson key), engine')) ∧
      ∀ key key', changedJson key = changedJson key' → key = key' :=
  ⟨fun v => ⟨jsonEscape_ge v, bareQuote_jsonEscape v, decodeString_jsonEscape v,
      readString_jsonEscape v⟩,
    fun env memoryUsage _ _ _ _ h => h.handleRequest env memoryUsage,
    fun _ _ _ _ => keyValueJson_inj, fun _ memoryUsage _ _ _ _ h => h.handleRequest memoryUsage,
    fun _ _ => changedJson_inj⟩

/-- The value `"` under the key `a`. -/
theorem responses_confined_quote : (do
    let (status, engine) ← KVEngine.put .undisturbed ⟨{}, BPlusTree.new {}, none, 1⟩ [97] [34]
    let (response, _) ← handleRequest .undisturbed (fun _ => 0) engine
      ⟨text "GET", keyPrefix ++ [97], []⟩
    some (status.ok, response.1, decodeString (jsonEscape [34])))
      = some (true, 200, some [34]) := by
  obtain ⟨engine, hput, hget⟩ : ∃ engine,
      KVEngine.put .undisturbed ⟨{}, BPlusTree.new {}, none, 1⟩ [97] [34]
        = some (.okStatus, engine) ∧ Gets engine ⟨text "GET", keyPrefix ++ [97], []⟩ [97] [34] :=
    ⟨_, rfl, ⟨rfl, ⟨[97], rfl, rfl⟩, by decide⟩, .okStatus, rfl, rfl⟩
  have hresponse := responses_confined.2.1 .undisturbed (fun _ => 0) engine _ _ _ hget
  simp only [hput, hresponse, Option.bind_eq_bind, Option.bind_some,
    (responses_confined.1 [34]).2.2.1]
  rfl

end Api

end KvEngine
