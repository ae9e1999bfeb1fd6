/-
  KvEngine.Api.RangeScan
  ──────────────────────
  **`GET /scan?` lists the pairs in range**, and refuses the invalid queries.

  Bytes are compared unsigned on both sides, so the order of the tree is the
  order of the bounds (`compare_neg_iff_lt`).  `rangeItems_scan` reads the loop
  of `RangeScanJson` as the loop over the iterator, whose entries are known.
-/
import KvEngine.Api.RangeQuery
import KvEngine.BTree.Scan
import KvEngine.Engine.Reached

namespace KvEngine

open Lib

/-! ## §1. The order of byte strings. -/

/-- **`Slice::compare` is the lexicographic order.** -/
theorem Slice.compare_neg_iff_lt (a b : Bytes) : Slice.compare a b < 0 ↔ a < b := by
  induction a generalizing b with
  | nil =>
      cases b with
      | nil => simp [Slice.compare_nil_nil]
      | cons y b => simp [Slice.compare_nil_cons]
  | cons x a ih =>
      cases b with
      | nil => simp [Slice.compare_cons_nil]
      | cons y b =>
          rw [Slice.compare_cons, List.cons_lt_cons_iff]
          by_cases hxy : x = y
          · subst hxy
            rw [if_pos rfl, ih]
            simp [UInt8.lt_irrefl]
          · rw [if_neg hxy]
            by_cases hlt : x < y <;> simp [hlt, hxy]

namespace Api

/-! ## §2. The text of a list. -/

/-- The list of some pairs and their count. -/
def rangeJson (es : List (Bytes × Bytes)) : Bytes :=
  text "\x7b\"items\":[" ++ (text ",").intercalate (es.map (fun e => keyValueJson e.1 e.2)) ++
    text "],\"count\":" ++ decimal es.length ++ text "\x7d"

/-- What the loop writes for some pairs; a comma stands before each but the
first. -/
def itemsText (first : Bool) (items : List Bytes) : Bytes :=
  if first then (text ",").intercalate items else items.flatMap (fun item => text "," ++ item)

theorem itemsText_cons (first : Bool) (item : Bytes) (items : List Bytes) :
    itemsText first (item :: items)
      = (if first then [] else text ",") ++ item ++ itemsText false items := by
  have hintercalate : ∀ (items : List Bytes) (item : Bytes),
      (text ",").intercalate (item :: items) = item ++ itemsText false items := by
    intro items
    induction items with
    | nil => intro item; simp [itemsText]
    | cons i items ih =>
        intro item
        rw [List.intercalate_cons_cons, ih i]
        simp [itemsText]
  cases first with
  | true => exact hintercalate items item
  | false => exact List.flatMap_cons

/-- **The loop of `RangeScanJson` is the loop over the iterator.** -/
theorem rangeItems_scan {tree : BPlusTree} {fuel : Nat} {iterator : Iterator}
    {seen : List (Status × Bytes × Bytes)} {last : Status} :
    ∀ {body : Bytes} {first : Bool} {count : Nat},
      Iterator.scan tree fuel iterator = some (seen, last) →
      rangeItems tree fuel iterator body first count = some (last,
        body ++ itemsText first (seen.map (fun e => keyValueJson e.2.1 e.2.2)),
        count + seen.length) := by
  induction fuel generalizing iterator seen with
  | zero => intro _ _ _ h; exact absurd h (by simp [Iterator.scan])
  | succ fuel ih =>
      intro body first count h
      rw [Iterator.scan] at h
      rw [rangeItems]
      simp only [Option.bind_eq_bind] at h ⊢
      obtain ⟨valid, hvalid, h⟩ := Option.bind_eq_some_iff.mp h
      rw [hvalid, Option.bind_some]
      cases valid with
      | false =>
          obtain ⟨rfl, rfl⟩ := Prod.mk.inj (Option.some.inj h)
          cases first <;> simp [itemsText]
      | true =>
          obtain ⟨entry, hentry, h⟩ := Option.bind_eq_some_iff.mp h
          obtain ⟨iterator', hnext, h⟩ := Option.bind_eq_some_iff.mp h
          obtain ⟨⟨rest, last'⟩, hscan, h⟩ := Option.bind_eq_some_iff.mp h
          obtain ⟨rfl, rfl⟩ := Prod.mk.inj (Option.some.inj h)
          simp only [if_true, hentry, hnext, Option.bind_some]
          rw [ih hscan, List.map_cons, itemsText_cons, List.length_cons]
          cases first <;> simp [Nat.add_comm, Nat.add_left_comm]

/-! ## §3. The scan of an engine. -/

variable {env : Env} {options : KVEngineOptions} {e : KVEngine}

/-- The bytewise order of the tree is the order of byte strings. -/
theorem lt_iff_of_bytewise {comparator : Option Comparator}
    (h : keyOrder comparator = bytewiseComparator) (a b : Bytes) :
    (keyOrder comparator).lt a b ↔ a < b := by
  rw [h]
  exact Slice.compare_neg_iff_lt a b

/-- **`RangeScanJson` shows the pairs in `[start, limit)`**, in ascending order,
each once. -/
theorem rangeScanJson_spec (h : KVEngine.Reached env options e)
    (hcmp : keyOrder options.btreeOptions.comparator = bytewiseComparator) (start limit : Bytes) :
    ∃ es, es.Pairwise (fun a b => a.1 < b.1) ∧
      (∀ key value, (key, value) ∈ es ↔
        e.get key = some (.okStatus, some value) ∧ start ≤ key ∧ key < limit) ∧
      rangeScanJson e start limit = some (200, rangeJson es) := by
  obtain ⟨-, m, hmodels⟩ := h.holdsMap
  obtain ⟨n, s, hrep, hopt, hfind⟩ := id hmodels
  have horder : e.tree.order = keyOrder options.btreeOptions.comparator := by
    rw [BPlusTree.order, hopt, BPlusTree.new_comparator]
  have hlt : ∀ a b, e.tree.order.lt a b ↔ a < b := by
    rw [horder]
    exact lt_iff_of_bytewise hcmp
  obtain ⟨iterator, hfirst, hscan⟩ :=
    Iterator.scan_findFirst hrep ⟨0, 0, some start, some limit, .okStatus⟩ rfl
  refine ⟨(itemEntries (n + 1) s).filter
    (fun e' => Iterator.inRange e.tree (some start) (some limit) e'.1), ?_, ?_, ?_⟩
  · exact (hrep.sorted.sublist List.filter_sublist).imp (fun hab => (hlt _ _).mp hab)
  · intro key value
    have hvalue : e.get key = some (.okStatus, some value) ↔ m key = some value := by
      rw [show e.get key = e.tree.get key from rfl, hmodels.get key]
      cases m key <;> simp [Status.okStatus, Status.notFound]
    rw [List.mem_filter, ← find_eq_some_iff hrep.sorted, hfind, hvalue]
    simp [Iterator.inRange, hlt, List.not_lt]
  · unfold rangeScanJson Iterator.new
    simp only [hfirst, Option.bind_eq_bind, Option.bind_some, rangeItems_scan hscan]
    simp [itemsText, rangeJson, Function.comp_def]

/-! ## §4. The endpoint. -/

/-- A request to the endpoint. -/
theorem handleRequest_scan (env : Env) (memoryUsage : BPlusTree → Nat) (e : KVEngine)
    (query body : Bytes) :
    handleRequest env memoryUsage e ⟨text "GET", scanPrefix ++ query, body⟩
      = match parseRangeQuery (scanPrefix ++ query) with
        | .error error => some ((400, errorJson error), e)
        | .ok (start, limit) =>
            (rangeScanJson e start limit).map (fun response => (response, e)) := by
  have hpre : scanPrefix <+: scanPrefix ++ query := List.prefix_append _ _
  unfold handleRequest
  rewrite [if_neg (show ¬ text "GET" = text "OPTIONS" by decide),
    if_neg (fun hcase => target_ne hpre (by decide) hcase.1),
    if_neg (fun hcase => target_ne hpre (by decide) hcase.1),
    if_neg (fun hcase => target_ne hpre (by decide) hcase.1),
    if_neg (fun hcase => target_ne hpre (by decide) hcase.1), if_pos ⟨rfl, hpre⟩]
  rfl

/-- **`GET /scan?`** answers a query with an encoded start below an encoded
limit by the list of the stored pairs from start up to the limit, and every
invalid query by an error. -/
theorem scan_endpoint (h : KVEngine.Reached env options e)
    (hcmp : keyOrder options.btreeOptions.comparator = bytewiseComparator)
    (memoryUsage : BPlusTree → Nat) (body : Bytes) :
    (∀ start limit ps, Escapes [37, 63, 38] start → Escapes [37, 63, 38] limit → start ≠ [] →
      start.map Prod.fst < limit.map Prod.fst → Arranged start limit ps →
      ∃ es, es.Pairwise (fun a b => a.1 < b.1) ∧
        (∀ key value, (key, value) ∈ es ↔ e.get key = some (.okStatus, some value) ∧
          start.map Prod.fst ≤ key ∧ key < limit.map Prod.fst) ∧
        handleRequest env memoryUsage e
            ⟨text "GET", scanPrefix ++ [38].intercalate ps, body⟩
          = some ((200, rangeJson es), e)) ∧
      ∀ query, Invalid query → ∃ error, handleRequest env memoryUsage e
          ⟨text "GET", scanPrefix ++ query, body⟩ = some ((400, errorJson error), e) := by
  constructor
  · intro start limit ps hstart hlimit hne hlt harranged
    obtain ⟨es, hsorted, hmem, hjson⟩ :=
      rangeScanJson_spec h hcmp (start.map Prod.fst) (limit.map Prod.fst)
    refine ⟨es, hsorted, hmem, ?_⟩
    rw [handleRequest_scan, harranged.parseRangeQuery hstart hlimit hne hlt]
    simp only [hjson, Option.map_some]
  · intro query hquery
    obtain ⟨error, herror⟩ := hquery.parseRangeQuery
    exact ⟨error, by rw [handleRequest_scan, herror]⟩

/-- The range from `a` to `c`, with the key `b` stored. -/
theorem scan_endpoint_between : ∃ e es,
    KVEngine.Reached .undisturbed { enableWal := false } e ∧ ([98], [1]) ∈ es ∧
      handleRequest .undisturbed (fun _ => 0) e
          ⟨text "GET", text "/scan?x=1&limit=c&start=%61", []⟩
        = some ((200, rangeJson es), e) := by
  obtain ⟨e, hput, hget⟩ : ∃ e, KVEngine.apply .undisturbed
        ⟨{ enableWal := false }, BPlusTree.new {}, none, 1⟩ (.put [98] [1])
        = some ((.okStatus, none), e) ∧ e.get [98] = some (.okStatus, some [1]) :=
    ⟨_, rfl, rfl⟩
  have hreached : KVEngine.Reached .undisturbed { enableWal := false } e :=
    .call (.new (show KVEngine.new .undisturbed { enableWal := false } {} = _ from rfl)) hput
  have harranged : Arranged [(97, .escaped false false)] [(99, .plain)]
      [text "x=1", text "limit=c", text "start=%61"] := by
    refine ⟨[text "x=1"], _, [], _, [], rfl, Or.inr ⟨rfl, rfl⟩, ?_⟩
    intro p hp
    obtain rfl := List.mem_singleton.mp hp
    exact ⟨by decide, Or.inr ⟨[120], [49], ⟨[49], rfl, by decide, rfl⟩, by decide, by decide⟩⟩
  obtain ⟨es, -, hmem, hscan⟩ := (scan_endpoint hreached rfl (fun _ => 0) []).1 _ _ _
    (by decide) (by decide) (by decide) (by decide) harranged
  exact ⟨e, es, hreached, (hmem _ _).mpr ⟨hget, by decide, by decide⟩, hscan⟩

end Api

end KvEngine
