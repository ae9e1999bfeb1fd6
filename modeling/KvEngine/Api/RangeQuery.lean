/-
  KvEngine.Api.RangeQuery
  ───────────────────────
  `ParseRangeQuery`: which queries it accepts, and the bounds it reads.

  The parameters of a query are the pieces between its ampersands;
  `getlines`, the loop of the code, gives the same but for an empty last one
  (`splitOn_getlines`).  `parseParameters_given` says what the loop leaves of
  parameters that can be read, `Invalid` lists what makes a query fail, and
  `Arranged` the queries made of an encoded start and an encoded limit.
-/
import KvEngine.Api.HandleRequest

namespace KvEngine

open Lib

namespace Api

/-! ## §1. Parameters. -/

/-- A name before the first `=`, and a value behind it that can be decoded. -/
def Parameter (p name value : Bytes) : Prop :=
  ∃ encoded, p = name ++ 61 :: encoded ∧ 61 ∉ name ∧ decodePathComponent encoded = some value

/-- The value of the parameter, if it has the name. -/
def valueOf (name p : Bytes) : Option Bytes :=
  match search [61] p with
  | none => none
  | some equals => if p.take equals = name then decodePathComponent (p.drop (equals + 1)) else none

/-- The value given for a name: of several, the last. -/
def given (name : Bytes) (ps : List Bytes) : Option Bytes := (ps.filterMap (valueOf name)).getLast?

variable {p name name' value value' start limit encoded : Bytes} {ps : List Bytes}

theorem valueOf_named (hname' : 61 ∉ name') :
    valueOf name (name' ++ 61 :: encoded)
      = if name' = name then decodePathComponent encoded else none := by
  rw [valueOf, search_singleton hname']
  simp only [List.take_left]
  rw [← List.drop_drop, List.drop_left]
  rfl

theorem Parameter.valueOf (h : Parameter p name value) : valueOf name p = some value := by
  obtain ⟨encoded, rfl, hname, hdecode⟩ := h
  rw [valueOf_named hname, if_pos rfl, hdecode]

theorem Parameter.valueOf_ne (h : Parameter p name' value) (hne : name' ≠ name) :
    Api.valueOf name p = none := by
  obtain ⟨encoded, rfl, hname, -⟩ := h
  rw [valueOf_named hname, if_neg hne]

theorem given_cons (name p : Bytes) (ps : List Bytes) :
    given name (p :: ps) = (given name ps).or (valueOf name p) := by
  unfold given
  rw [List.filterMap_cons]
  cases valueOf name p with
  | none => simp
  | some value => rw [List.getLast?_cons]; cases (ps.filterMap (valueOf name)).getLast? <;> rfl

/-! ## §2. The loop. -/

theorem parseParameters_empty : parseParameters start limit ([] :: ps)
    = parseParameters start limit ps := rfl

theorem parseParameters_named (hname : 61 ∉ name) :
    parseParameters start limit ((name ++ 61 :: encoded) :: ps)
      = match decodePathComponent encoded with
        | none => .error (text "invalid query parameter encoding")
        | some value =>
            if name = text "start" then parseParameters value limit ps
            else if name = text "limit" then parseParameters start value ps
            else parseParameters start limit ps := by
  rw [parseParameters, if_neg (by simp), search_singleton hname]
  simp only [List.take_left]
  rw [← List.drop_drop, List.drop_left]
  rfl

/-- The parameter cannot be read: it lacks a `=`, or its value is no escaped
text. -/
def Unreadable (p : Bytes) : Prop :=
  61 ∉ p ∧ p ≠ [] ∨
    ∃ name encoded, p = name ++ 61 :: encoded ∧ 61 ∉ name ∧ decodePathComponent encoded = none

theorem readable_cases (h : ¬ Unreadable p) : p = [] ∨ ∃ name value, Parameter p name value := by
  by_cases hempty : p = []
  · exact Or.inl hempty
  · refine Or.inr ?_
    cases hs : search [61] p with
    | none => exact absurd (Or.inl ⟨search_singleton_eq_none_iff.mp hs, hempty⟩) h
    | some equals =>
        obtain ⟨name, encoded, rfl, hname, -⟩ := search_singleton_eq_some_iff.mp hs
        cases hdecode : decodePathComponent encoded with
        | none => exact absurd (Or.inr ⟨name, encoded, rfl, hname, hdecode⟩) h
        | some value => exact ⟨name, value, encoded, rfl, hname, hdecode⟩

/-- **The loop reads the given values**, and stops at a parameter it cannot
read. -/
theorem parseParameters_given (h : ∀ p ∈ ps, ¬ Unreadable p) :
    ∀ start limit, parseParameters start limit ps
      = .ok ((given (text "start") ps).getD start, (given (text "limit") ps).getD limit) := by
  induction ps with
  | nil => exact fun _ _ => rfl
  | cons p ps ih =>
      intro start limit
      obtain ⟨hp, hps⟩ := List.forall_mem_cons.mp h
      rw [given_cons, given_cons]
      rcases readable_cases hp with rfl | ⟨name, value, hparam⟩
      · rw [parseParameters_empty, ih hps, show valueOf (text "start") [] = none from rfl,
          show valueOf (text "limit") [] = none from rfl, Option.or_none, Option.or_none]
      · obtain ⟨encoded, rfl, hname, hdecode⟩ := id hparam
        rw [parseParameters_named hname, hdecode]
        simp only
        split
        next hstart =>
          subst hstart
          rw [ih hps, hparam.valueOf, hparam.valueOf_ne (by decide), Option.or_none]
          cases given (text "start") ps <;> rfl
        next hstart =>
          rw [hparam.valueOf_ne hstart, Option.or_none]
          split
          next hlimit =>
            subst hlimit
            rw [ih hps, hparam.valueOf]
            cases given (text "limit") ps <;> rfl
          next hlimit => rw [ih hps, hparam.valueOf_ne hlimit, Option.or_none]

theorem parseParameters_unreadable (hmem : p ∈ ps) (h : Unreadable p) :
    ∀ start limit, ∃ error, parseParameters start limit ps = .error error := by
  induction ps with
  | nil => exact absurd hmem (by simp)
  | cons q ps ih =>
      intro start limit
      by_cases hq : Unreadable q
      · rcases hq with ⟨hnone, hne⟩ | ⟨name, encoded, rfl, hname, hdecode⟩
        · refine ⟨text "invalid query parameter", ?_⟩
          rw [parseParameters, if_neg (by simpa using hne), search_singleton_eq_none_iff.mpr hnone]
        · exact ⟨_, by rw [parseParameters_named hname, hdecode]⟩
      · have hps : p ∈ ps := (List.mem_cons.mp hmem).resolve_left (fun heq => hq (heq ▸ h))
        rcases readable_cases hq with rfl | ⟨name, value, encoded, rfl, hname, hdecode⟩
        · exact ih hps start limit
        · rw [parseParameters_named hname, hdecode]
          simp only
          split
          · exact ih hps value limit
          · split
            · exact ih hps start value
            · exact ih hps start limit

/-! ## §3. Splitting at ampersands. -/

theorem getlines_eq_nil {delim : UInt8} {s : Bytes} : getlines delim s = [] ↔ s = [] := by
  cases s with
  | nil => exact Iff.intro (fun _ => rfl) (fun _ => rfl)
  | cons c rest =>
      refine ⟨fun h => ?_, fun h => absurd h (by simp)⟩
      rw [getlines] at h
      split at h
      · exact absurd h (by simp)
      · split at h <;> exact absurd h (by simp)

/-- `getline` does not give the empty piece behind a last delimiter. -/
theorem splitOn_getlines (delim : UInt8) (s : Bytes) :
    s.splitOn delim = getlines delim s ∨ s.splitOn delim = getlines delim s ++ [[]] := by
  induction s with
  | nil => exact Or.inr rfl
  | cons c rest ih =>
      rw [List.splitOn_cons_eq_if_modifyHead, getlines]
      by_cases hc : c = delim
      · rw [if_pos (by simpa using hc), if_pos hc]
        exact ih.imp (fun h => by rw [h]) (fun h => by rw [h]; rfl)
      · rw [if_neg (by simpa using hc), if_neg hc]
        split
        next hnil =>
          obtain rfl := getlines_eq_nil.mp hnil
          exact Or.inl rfl
        next line lines hcons =>
          rw [hcons] at ih
          exact ih.imp (fun h => by rw [h]; rfl) (fun h => by rw [h]; rfl)

/-- A parameter that is empty plays no part. -/
theorem parseParameters_snoc_empty (ps : List Bytes) :
    ∀ start limit, parseParameters start limit (ps ++ [[]]) = parseParameters start limit ps := by
  induction ps with
  | nil => exact fun _ _ => rfl
  | cons p ps ih =>
      intro start limit
      simp only [List.cons_append, parseParameters, ih]

/-- **The loop is over the pieces of the query.** -/
theorem parseParameters_splitOn (start limit query : Bytes) :
    parseParameters start limit (getlines 38 query)
      = parseParameters start limit (query.splitOn 38) := by
  rcases splitOn_getlines 38 query with h | h
  · rw [h]
  · rw [h, parseParameters_snoc_empty]

theorem parseRangeQuery_eq (query : Bytes) :
    parseRangeQuery (scanPrefix ++ query)
      = match parseParameters [] [] (query.splitOn 38) with
        | .error error => .error error
        | .ok (start, limit) =>
            if start.isEmpty then .error (text "start parameter is required")
            else if limit.isEmpty then .error (text "limit parameter is required")
            else if start ≥ limit then .error (text "start must be less than limit")
            else .ok (start, limit) := by
  rewrite [parseRangeQuery, if_pos (List.prefix_append _ _), List.drop_left,
    parseParameters_splitOn]
  rfl

/-! ## §4. Queries that are refused. -/

/-- A bound is missing or empty, a value cannot be decoded, a parameter lacks
a `=`, or the bounds are in the wrong order. -/
inductive Invalid (query : Bytes) : Prop
  | unreadable {p : Bytes} (hmem : p ∈ query.splitOn 38) (h : Unreadable p)
  | missing {name : Bytes} (hname : name = text "start" ∨ name = text "limit")
      (h : given name (query.splitOn 38) = none)
  | empty {name : Bytes} (hname : name = text "start" ∨ name = text "limit")
      (h : given name (query.splitOn 38) = some [])
  | order {start limit : Bytes} (hstart : given (text "start") (query.splitOn 38) = some start)
      (hlimit : given (text "limit") (query.splitOn 38) = some limit) (h : limit ≤ start)

/-- Bounds that are read but do not fit. -/
theorem parseRangeQuery_refused {query : Bytes} (h : ∀ p ∈ query.splitOn 38, ¬ Unreadable p)
    (hstart : (given (text "start") (query.splitOn 38)).getD [] = start)
    (hlimit : (given (text "limit") (query.splitOn 38)).getD [] = limit)
    (hbounds : start = [] ∨ limit = [] ∨ limit ≤ start) :
    ∃ error, parseRangeQuery (scanPrefix ++ query) = .error error := by
  rw [parseRangeQuery_eq, parseParameters_given h, hstart, hlimit]
  simp only
  split
  · exact ⟨_, rfl⟩
  next hstart' =>
    split
    · exact ⟨_, rfl⟩
    next hlimit' =>
      have hle : limit ≤ start := (hbounds.resolve_left (by simpa using hstart')).resolve_left
        (by simpa using hlimit')
      exact ⟨_, if_pos hle⟩

theorem Invalid.parseRangeQuery {query : Bytes} (h : Invalid query) :
    ∃ error, parseRangeQuery (scanPrefix ++ query) = .error error := by
  rw [parseRangeQuery_eq]
  by_cases hread : ∃ p ∈ query.splitOn 38, Unreadable p
  · obtain ⟨p, hmem, hp⟩ := hread
    obtain ⟨error, herror⟩ := parseParameters_unreadable hmem hp [] []
    exact ⟨error, by rw [herror]⟩
  · rw [← parseRangeQuery_eq]
    refine parseRangeQuery_refused (fun p hmem hp => hread ⟨p, hmem, hp⟩) rfl rfl ?_
    cases h with
    | unreadable hmem hp => exact absurd ⟨_, hmem, hp⟩ hread
    | missing hname h =>
        rcases hname with rfl | rfl
        · exact Or.inl (by rw [h]; rfl)
        · exact Or.inr (Or.inl (by rw [h]; rfl))
    | empty hname h =>
        rcases hname with rfl | rfl
        · exact Or.inl (by rw [h]; rfl)
        · exact Or.inr (Or.inl (by rw [h]; rfl))
    | order hstart hlimit h =>
        refine Or.inr (Or.inr ?_)
        rw [hstart, hlimit]
        exact h

/-! ## §5. Queries that are accepted. -/

theorem parseRangeQuery_ok {query : Bytes} (h : ∀ p ∈ query.splitOn 38, ¬ Unreadable p)
    (hstart : given (text "start") (query.splitOn 38) = some start)
    (hlimit : given (text "limit") (query.splitOn 38) = some limit) (hne : start ≠ [])
    (hlt : start < limit) : parseRangeQuery (scanPrefix ++ query) = .ok (start, limit) := by
  have hlimit' : limit ≠ [] := by
    rintro rfl
    exact absurd hlt (List.not_lt_nil start)
  rw [parseRangeQuery_eq, parseParameters_given h, hstart, hlimit]
  simp only [Option.getD_some]
  rw [if_neg (by simpa using hne), if_neg (by simpa using hlimit'),
    if_neg (fun hle => List.not_lt.mpr hle hlt)]

/-- A parameter that gives no bound: empty, or with another name and a value
that can be decoded. -/
def Other (p : Bytes) : Prop :=
  38 ∉ p ∧ (p = [] ∨ ∃ name value, Parameter p name value ∧ name ≠ text "start" ∧
    name ≠ text "limit")

/-- The start and the limit, in either order, with other parameters before,
between and behind them. -/
def Arranged (start limit : List (UInt8 × Writing)) (ps : List Bytes) : Prop :=
  ∃ before first between second behind, ps = before ++ first :: (between ++ second :: behind) ∧
    (first = text "start=" ++ percentEncode start ∧ second = text "limit=" ++ percentEncode limit ∨
      first = text "limit=" ++ percentEncode limit ∧
        second = text "start=" ++ percentEncode start) ∧
    ∀ p ∈ before ++ between ++ behind, Other p

theorem Parameter.readable (h : Parameter p name value) : ¬ Unreadable p := by
  rintro (⟨hnone, -⟩ | ⟨name', encoded, rfl, hname, hdecode⟩)
  · obtain ⟨encoded, rfl, -⟩ := h
    exact hnone (by simp)
  · have hvalue := h.valueOf
    rw [valueOf_named hname, hdecode] at hvalue
    split at hvalue <;> exact absurd hvalue (by simp)

theorem Other.readable (h : Other p) : ¬ Unreadable p := by
  obtain ⟨-, rfl | ⟨name, value, hparam, -⟩⟩ := h
  · rintro (⟨-, hne⟩ | ⟨_, _, hnil, -⟩)
    · exact hne rfl
    · exact absurd hnil (by simp)
  · exact hparam.readable

theorem Other.valueOf (h : Other p) (hname : name = text "start" ∨ name = text "limit") :
    Api.valueOf name p = none := by
  obtain ⟨-, rfl | ⟨name', value, hparam, hstart, hlimit⟩⟩ := h
  · rfl
  · exact hparam.valueOf_ne (fun heq => hname.elim (fun h => hstart (heq.trans h))
      (fun h => hlimit (heq.trans h)))

/-- A parameter that gives an escaped value. -/
theorem parameter_encoded {bound : List (UInt8 × Writing)} (name : Bytes) (hname : 61 ∉ name)
    (h : Escapes [37, 63, 38] bound) :
    Parameter (name ++ 61 :: percentEncode bound) name (bound.map Prod.fst) :=
  ⟨_, rfl, hname, decodePathComponent_eq_some_iff.mpr (Escapes.unescapes
    (fun p hp hmem => h p hp (by revert hmem; simp only [List.mem_cons]; tauto)))⟩

/-- Nothing of an escaped value is an ampersand. -/
theorem not_mem_percentEncode {bound : List (UInt8 × Writing)} (h : Escapes [37, 63, 38] bound) :
    38 ∉ percentEncode bound := by
  intro hmem
  obtain ⟨⟨c, w⟩, hp, hc⟩ := List.mem_flatMap.mp hmem
  cases w with
  | plain =>
      have hamp : 38 = c := by simpa [writeByte] using hc
      exact h _ hp (by rw [← hamp]; decide) rfl
  | escaped hi lo =>
      have hdigit : ∀ upper, ∀ n < 16, 38 ≠ hexDigit upper n := by decide
      have hlt := c.toNat_lt
      simp only [writeByte, List.mem_cons, List.not_mem_nil, or_false] at hc
      rcases hc with hc | hc | hc
      · exact absurd hc (by decide)
      · exact hdigit hi _ (by omega) hc
      · exact hdigit lo _ (Nat.mod_lt _ (by omega)) hc

/-- Of the pieces of such a list only two give a value. -/
theorem given_two {before between behind : List Bytes} {first second : Bytes}
    (hothers : ∀ p ∈ before ++ between ++ behind, valueOf name p = none) :
    given name (before ++ first :: (between ++ second :: behind))
      = (valueOf name second).or (valueOf name first) := by
  have hnone : ∀ qs : List Bytes, (∀ q ∈ qs, q ∈ before ++ between ++ behind) →
      qs.filterMap (valueOf name) = [] := fun qs hqs =>
    List.filterMap_eq_nil_iff.mpr (fun q hq => hothers q (hqs q hq))
  unfold given
  rw [List.filterMap_append, List.filterMap_cons, List.filterMap_append, List.filterMap_cons,
    hnone before (by simp +contextual), hnone between (by simp +contextual),
    hnone behind (by simp +contextual)]
  cases valueOf name first <;> cases valueOf name second <;> rfl

variable {low high : List (UInt8 × Writing)}

theorem Arranged.cases (h : Arranged low high ps) : ∀ p ∈ ps, Other p ∨
    p = text "start=" ++ percentEncode low ∨ p = text "limit=" ++ percentEncode high := by
  obtain ⟨before, first, between, second, behind, rfl, horder, hothers⟩ := h
  intro p hp
  simp only [List.mem_append, List.mem_cons] at hp hothers
  rcases hp with hp | rfl | hp | rfl | hp
  · exact Or.inl (hothers p (Or.inl (Or.inl hp)))
  · exact Or.inr (horder.imp And.left And.left)
  · exact Or.inl (hothers p (Or.inl (Or.inr hp)))
  · exact Or.inr ((horder.imp And.right And.right).symm)
  · exact Or.inl (hothers p (Or.inr hp))

/-- **An arranged query gives its bounds**, whatever surrounds them. -/
theorem Arranged.parseRangeQuery (h : Arranged low high ps) (hlow : Escapes [37, 63, 38] low)
    (hhigh : Escapes [37, 63, 38] high) (hne : low ≠ [])
    (hlt : low.map Prod.fst < high.map Prod.fst) :
    parseRangeQuery (scanPrefix ++ [38].intercalate ps)
      = .ok (low.map Prod.fst, high.map Prod.fst) := by
  have hstart : Parameter (text "start=" ++ percentEncode low) (text "start") (low.map Prod.fst) :=
    parameter_encoded (text "start") (by decide) hlow
  have hlimit : Parameter (text "limit=" ++ percentEncode high) (text "limit")
      (high.map Prod.fst) := parameter_encoded (text "limit") (by decide) hhigh
  have hsplit : ([38].intercalate ps).splitOn 38 = ps := by
    refine List.splitOn_intercalate 38 (fun p hp hmem => ?_) ?_
    · rcases h.cases p hp with hother | rfl | rfl
      · exact hother.1 hmem
      · exact (List.mem_append.mp hmem).elim (by decide) (not_mem_percentEncode hlow)
      · exact (List.mem_append.mp hmem).elim (by decide) (not_mem_percentEncode hhigh)
    · obtain ⟨before, first, between, second, behind, rfl, -⟩ := h
      simp
  have hreadable : ∀ p ∈ ps, ¬ Unreadable p := by
    intro p hp
    rcases h.cases p hp with hother | rfl | rfl
    · exact hother.readable
    · exact hstart.readable
    · exact hlimit.readable
  have hgiven : given (text "start") ps = some (low.map Prod.fst) ∧
      given (text "limit") ps = some (high.map Prod.fst) := by
    obtain ⟨before, first, between, second, behind, rfl, horder, hothers⟩ := h
    rw [given_two (fun p hp => (hothers p hp).valueOf (Or.inl rfl)),
      given_two (fun p hp => (hothers p hp).valueOf (Or.inr rfl))]
    rcases horder with ⟨rfl, rfl⟩ | ⟨rfl, rfl⟩
    · rw [hstart.valueOf, hlimit.valueOf, hstart.valueOf_ne (by decide),
        hlimit.valueOf_ne (by decide)]
      exact ⟨rfl, rfl⟩
    · rw [hstart.valueOf, hlimit.valueOf, hstart.valueOf_ne (by decide),
        hlimit.valueOf_ne (by decide)]
      exact ⟨rfl, rfl⟩
  refine parseRangeQuery_ok ?_ ?_ ?_ (by simpa using hne) hlt
  · rw [hsplit]
    exact hreadable
  · rw [hsplit]
    exact hgiven.1
  · rw [hsplit]
    exact hgiven.2

end Api

end KvEngine
