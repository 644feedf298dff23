import Topics.RoutedCalls

/-!
# Copies in the dead-letter topic

`dead_letter_jobs` copies the data, tag and node of a job and stamps its provenance into `meta`,
without a look at the limits.  A `meta` that is not an object is lost, and the stamps can take an
object past what a router rebuilds (`build_stored_owned`).
-/

namespace Topics

open List

variable {Blob : Type} {S : Serde Blob} {data : Value} {tag node : Option String}
  {meta? : Option Value} {now : Int}

/-! ## Limits -/

/-- The limits of `build_stored_owned` on a payload. -/
def Fits (S : Serde Blob) (data : Value) (meta? : Option Value) : Prop :=
  (∀ m ∈ meta?, S.len (S.toVec m) ≤ maxMetaBytes) ∧
    (∀ kvs, meta? = some (.object kvs) → kvs.length ≤ maxMetaKeys) ∧
    payloadBytes S data meta? ≤ maxRecordBytes

theorem exists_buildStoredOwned_iff :
    (∃ r, buildStoredOwned S data tag node meta? now = .ok r) ↔
      (∀ t ∈ tag, t.utf8ByteSize ≤ maxTagBytes) ∧ (∀ n ∈ node, n.utf8ByteSize ≤ maxNodeBytes) ∧
        Fits S data meta? := by
  have hany : ∀ (o : Option String) (n : Nat),
      o.any (fun t => t.utf8ByteSize > n) = true ↔ ¬∀ t ∈ o, t.utf8ByteSize ≤ n := by
    intro o n
    cases o <;> simp
  have hbytes : (meta?.map fun m => S.len (S.toVec m)).getD 0 > maxMetaBytes ↔
      ¬∀ m ∈ meta?, S.len (S.toVec m) ≤ maxMetaBytes := by
    cases meta? <;> simp
  unfold buildStoredOwned Fits
  simp only [hany, hbytes, ite_not]
  split_ifs with htag hnode hmeta hkeys hsize
  · refine iff_of_false nofun fun h => ?_
    split at hkeys
    · exact absurd (h.2.2.2.1 _ rfl) hkeys.not_ge
    · cases hkeys
  · exact iff_of_false nofun fun h => hsize.not_ge h.2.2.2.2
  · refine iff_of_true ⟨_, rfl⟩ ⟨htag, hnode, hmeta, ?_, not_lt.1 hsize⟩
    rintro kvs rfl
    exact not_lt.1 hkeys
  · exact iff_of_false nofun fun h => hmeta h.2.2.1
  · exact iff_of_false nofun fun h => hnode h.2.1
  · exact iff_of_false nofun fun h => htag h.1

namespace ForwardPass

variable {p : ForwardPass} {source dest : TopicState} {w : ForwardWalk} {seq : Nat}
  {r : StoredRecord}

/-- The `meta` a router gives to its copy. -/
def carriedMeta (p : ForwardPass) (source : TopicState) (seq : Nat) (meta? : Option Value) :
    Option Value :=
  if p.exactlyOnce then
    withRouterIdempotencyMeta meta? (routerIdempotencyKey p.router source seq) p.router source seq
  else meta?

theorem exists_copyRecord_iff (hroom : p.config.discard ≠ .reject)
    (hkey : routerIdempotencyKey p.router source seq ∉ p.keys)
    (htag : ∀ t ∈ r.tag, t.utf8ByteSize ≤ maxTagBytes)
    (hnode : ∀ n ∈ r.node, n.utf8ByteSize ≤ maxNodeBytes) :
    (∃ sr, p.copyRecord S source dest w seq r = .copy sr) ↔
      Fits S r.data (p.carriedMeta source seq r.meta) := by
  have hkept : ∀ (keep : Bool) (o : Option String) (n : Nat), (∀ t ∈ o, t.utf8ByteSize ≤ n) →
      ∀ t ∈ if keep then o else none, t.utf8ByteSize ≤ n := by
    intro keep o n h
    cases keep with
    | true => exact h
    | false => nofun
  have hbuild := @exists_buildStoredOwned_iff _ S r.data
    (if p.router.preserveTag then r.tag else none)
    (if p.router.preserveNode then r.node else none) (p.carriedMeta source seq r.meta) p.now
  rw [and_iff_right (hkept _ _ _ htag), and_iff_right (hkept _ _ _ hnode)] at hbuild
  rw [← hbuild]
  unfold copyRecord carriedMeta
  simp only [hkey, and_false, if_false, hroom, false_and]
  split
  · rename_i herror
    rw [herror]
    split <;> simp
  · rename_i hok
    simp [hok]

end ForwardPass

/-! ## The copy -/

theorem mem_foldl_insertField {fields kvs : List (String × Value)} {kv : String × Value}
    (hkeys : (fields.map Prod.fst).Nodup) :
    kv ∈ fields.foldl insertField kvs ↔
      kv ∈ fields ∨ kv ∈ kvs ∧ kv.1 ∉ fields.map Prod.fst := by
  induction fields generalizing kvs with
  | nil => simp
  | cons f fields ih =>
    obtain ⟨hf, hkeys⟩ := nodup_cons.1 hkeys
    have hown : kv = f → kv.1 ∉ fields.map Prod.fst := fun h => h ▸ hf
    rw [foldl_cons, ih hkeys, insertField, mem_append, mem_filter, mem_singleton, mem_cons,
      map_cons, mem_cons, decide_eq_true_eq]
    tauto

/-- The fields that tell where a dead letter comes from. -/
def provenance (source : String) (maxDeliveries seq : Nat) : List (String × Value) :=
  [("$dead_letter_from", .string source),
    ("$dead_letter_deliveries", .string (toString maxDeliveries)),
    ("$dead_letter_src_seq", .string (toString seq))]

/-- The fields of a `meta` object. -/
def metaFields : Option Value → List (String × Value)
  | some (.object kvs) => kvs
  | _ => []

/-- A job with the given `meta`. -/
def jobWith (m : Value) : StoredRecord := ⟨0, none, some "resize", .null, some m, 2, false, true, 0⟩

/-- An at-least-once router out of the dead-letter topic. -/
def deadLetterPass : ForwardPass where
  router := { name := "r", source := "dlq", dest := "dst" }
  cursor := 0
  srcHead := 1
  config := {}
  keys := []
  now := 0

def tracedCopy : StoredRecord :=
  deadLetterRecord Serde.identity (fun _ => (.null, none)) "jobs" 5 0 1
    (jobWith (.object [("trace", .string "z9")]))

end Topics
