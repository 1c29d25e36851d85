import Mathlib.Data.List.Dedup
import JsonStencil.Encoder
import JsonStencil.Proofs.DocumentTexts

/-!
# Runs of a cache

A cache looks encoders up by document texts alone. What the text of a
document leaves out, compiling does not look at, so an encoder that was made
for another schema with the same text is the encoder of the schema at hand.
A run of requests therefore cannot tell a cache from compiling anew, except
that requests with the same text get one and the same encoder.

The invariant of a run says which texts stand in the cache and where each
encoder comes from. Entries are only ever added behind those that are there,
so the place of an entry stays what it was when it was handed out.

Main definitions:

* `EncoderCache.obtainAll` — a run of requests.
* `EncoderCache.Holds` — what the cache holds after requests.

Main results:

* `Schema.ofSchema_eq_of_documentText` — schemas with one text have one plan.
* `EncoderCache.Holds.obtain` / `EncoderCache.Holds.obtainAll` — one request,
  and a run of requests.
* `EncoderCache.obtainAll_transparent` — a run seen from outside.
-/

namespace JsonStencil

/-- Schemas with the same document text have the same plan. -/
theorem Schema.ofSchema_eq_of_documentText {s t : Schema} (hKeys : s.Everywhere KeysDistinct)
    (hs : s.Everywhere Unshadowed) (hKeys' : t.Everywhere KeysDistinct)
    (ht : t.Everywhere Unshadowed) (h : s.documentText = t.documentText) :
    Plan.ofSchema s = Plan.ofSchema t :=
  (alike_of_documentText s t hKeys hs hKeys' ht h).ofSchema_eq

namespace EncoderCache

/-- The answers to requests, one after the other, and the cache after
them. -/
def obtainAll (c : EncoderCache) : List Schema → List (Nat × Encoder) × EncoderCache
  | [] => ([], c)
  | s :: rest =>
    let first := c.obtain s
    let others := first.2.obtainAll rest
    (first.1 :: others.1, others.2)

/-! ## One request -/

/-- What is looked up stands at the place that is found. -/
theorem getElem?_of_lookup {entries : List (String × Encoder)} {text : String}
    {encoder : Encoder} (h : entries.lookup text = some encoder) :
    ∃ index, entries.findIdx? (fun entry => entry.1 == text) = some index ∧
      entries[index]? = some (text, encoder) := by
  -- both searches go along the entries and stop at the first one under the text
  induction entries with
  | nil => cases h
  | cons entry rest ih =>
    obtain ⟨key, found⟩ := entry
    by_cases hKey : key = text
    · subst hKey
      rw [List.lookup_cons_self] at h
      refine ⟨0, ?_, ?_⟩
      · rw [List.findIdx?_cons, beq_self_eq_true]
        rfl
      · rw [List.getElem?_cons_zero, Option.some.inj h]
    · have hOther : (text == key) = false := beq_eq_false_iff_ne.mpr (Ne.symm hKey)
      rw [List.lookup_cons, hOther] at h
      obtain ⟨index, hIndex, hEntry⟩ := ih h
      refine ⟨index + 1, ?_, hEntry⟩
      rw [List.findIdx?_cons, beq_eq_false_iff_ne.mpr hKey, hIndex]
      rfl

/-- A request is answered by the entry under its text. Either it is there, or
it is made and put behind the others. -/
theorem obtain_cases (c : EncoderCache) (s : Schema) :
    (∃ index encoder, c.obtain s = ((index, encoder), c) ∧
      c.entries[index]? = some (s.documentText, encoder)) ∨
    (s.documentText ∉ Fields.keys c.entries ∧
      c.obtain s = ((c.entries.length, Encoder.ofSchema s c.escaping),
        { c with entries := c.entries ++ [(s.documentText, Encoder.ofSchema s c.escaping)] })) := by
  unfold obtain
  dsimp only
  cases hLookup : c.entries.lookup s.documentText with
  | some encoder =>
    obtain ⟨index, hIndex, hEntry⟩ := getElem?_of_lookup hLookup
    refine Or.inl ⟨index, encoder, ?_, hEntry⟩
    rw [indexOf?, hIndex, Option.getD_some]
  | none =>
    refine Or.inr ⟨fun hMem => ?_, rfl⟩
    -- an entry under the text would have been found
    obtain ⟨entry, hEntry, hText⟩ := List.mem_map.mp hMem
    exact bne_iff_ne.mp (List.lookup_eq_none_iff.mp hLookup entry hEntry) hText.symm

/-- The answer to a request is the entry under its text, at its place. -/
def Answers (c : EncoderCache) (s : Schema) (answer : Nat × Encoder) : Prop :=
  c.entries[answer.1]? = some (s.documentText, answer.2)

/-- A request is answered as it should be. -/
theorem answers_obtain (c : EncoderCache) (s : Schema) :
    (c.obtain s).2.Answers s (c.obtain s).1 := by
  rcases c.obtain_cases s with ⟨index, encoder, hObtain, hEntry⟩ | ⟨-, hObtain⟩
  · rw [hObtain]
    exact hEntry
  · rw [hObtain, Answers]
    exact List.getElem?_concat_length

/-- Entries stay where they are. -/
theorem entries_obtain (c : EncoderCache) (s : Schema) :
    c.entries <+: (c.obtain s).2.entries := by
  rcases c.obtain_cases s with ⟨index, encoder, hObtain, -⟩ | ⟨-, hObtain⟩
  · have hSame : (c.obtain s).2 = c := congrArg Prod.snd hObtain
    exact hSame.symm ▸ List.prefix_rfl
  · rw [hObtain]
    exact List.prefix_append ..

/-! ## What a cache holds -/

/-- The cache holds one encoder for the text of every schema that was asked
for, made of such a schema, and no other encoder. -/
structure Holds (c : EncoderCache) (escaping : Json.Escaping) (seen : List Schema) : Prop where
  options : c.escaping = escaping
  distinct : (Fields.keys c.entries).Nodup
  texts : ∀ text, text ∈ Fields.keys c.entries ↔ text ∈ seen.map Schema.documentText
  made : ∀ entry ∈ c.entries, ∃ s ∈ seen, s.documentText = entry.1 ∧
    entry.2 = Encoder.ofSchema s escaping

variable {c : EncoderCache} {escaping : Json.Escaping} {seen : List Schema}

/-- Before the first request the cache holds nothing. -/
theorem Holds.empty (escaping : Json.Escaping) : Holds { escaping } escaping [] where
  options := rfl
  distinct := List.nodup_nil
  texts := fun _ => Iff.rfl
  made := fun _ h => absurd h List.not_mem_nil

/-- After a request the cache holds what it held and an encoder for the
schema asked for. -/
theorem Holds.obtain (h : c.Holds escaping seen) (s : Schema) :
    (c.obtain s).2.Holds escaping (seen ++ [s]) := by
  have hTexts (text : String) : text ∈ (seen ++ [s]).map Schema.documentText ↔
      text ∈ Fields.keys c.entries ∨ text = s.documentText := by
    rw [List.map_append, List.mem_append, ← h.texts, List.map_singleton, List.mem_singleton]
  rcases c.obtain_cases s with ⟨index, encoder, hObtain, hEntry⟩ | ⟨hNew, hObtain⟩
  · have hHeld : s.documentText ∈ Fields.keys c.entries :=
      List.mem_map_of_mem (List.mem_of_getElem? hEntry)
    rw [hObtain]
    -- nothing is added, and the text was among those asked for before
    refine ⟨h.options, h.distinct, fun text => ?_, fun entry hMem => ?_⟩
    · rw [hTexts]
      refine ⟨Or.inl, fun hText => hText.elim id ?_⟩
      rintro rfl
      exact hHeld
    · obtain ⟨t, ht, hMade⟩ := h.made entry hMem
      exact ⟨t, List.mem_append_left _ ht, hMade⟩
  · rw [hObtain]
    -- the new text was not there before, so the texts stay distinct
    refine ⟨h.options, ?_, fun text => ?_, fun entry hMem => ?_⟩
    · rw [Fields.keys, List.map_append, List.nodup_append]
      refine ⟨h.distinct, List.nodup_singleton _, ?_⟩
      intro text hText other hOther hEq
      rw [List.map_singleton, List.mem_singleton] at hOther
      rw [hEq, hOther] at hText
      exact hNew hText
    · rw [hTexts, Fields.keys, List.map_append, List.mem_append, List.map_singleton,
        List.mem_singleton]
      rfl
    · rcases List.mem_append.mp hMem with hOld | hAdded
      · obtain ⟨t, ht, hMade⟩ := h.made entry hOld
        exact ⟨t, List.mem_append_left _ ht, hMade⟩
      · rw [List.mem_singleton.mp hAdded, h.options]
        exact ⟨s, List.mem_append_right _ (List.mem_singleton_self s), rfl, rfl⟩

/-- A run leaves the cache with what it held and an encoder for every schema
asked for. -/
theorem Holds.obtainAll (h : c.Holds escaping seen) (requests : List Schema) :
    (c.obtainAll requests).2.Holds escaping (seen ++ requests) := by
  -- the cache and what was asked before are general: each request starts from what the one
  -- before it left
  induction requests generalizing c seen with
  | nil =>
    rw [List.append_nil]
    exact h
  | cons s rest ih =>
    -- the cache that the first request leaves holds one schema more
    have hRest := ih (h.obtain s)
    rw [List.append_assoc] at hRest
    exact hRest

/-- As many encoders are held as there are texts among the schemas asked
for. -/
theorem Holds.size_eq (h : c.Holds escaping seen) :
    c.size = (seen.map Schema.documentText).dedup.length := by
  -- both lists are free of repetitions and hold the same texts
  have hPerm : (Fields.keys c.entries).Perm (seen.map Schema.documentText).dedup :=
    (List.perm_ext_iff_of_nodup h.distinct (List.nodup_dedup _)).mpr fun text => by
      rw [h.texts, List.mem_dedup]
  rw [← hPerm.length_eq, Fields.keys, List.length_map, size]

/-! ## Runs -/

/-- In a run of requests, too, entries stay where they are. -/
theorem entries_obtainAll (c : EncoderCache) (requests : List Schema) :
    c.entries <+: (c.obtainAll requests).2.entries := by
  induction requests generalizing c with
  | nil => exact List.prefix_rfl
  | cons s rest ih => exact (c.entries_obtain s).trans (ih (c.obtain s).2)

/-- There is one answer for each request. -/
theorem length_obtainAll (c : EncoderCache) (requests : List Schema) :
    (c.obtainAll requests).1.length = requests.length := by
  induction requests generalizing c with
  | nil => rfl
  | cons s rest ih => exact congrArg (· + 1) (ih (c.obtain s).2)

/-- At the end of a run every answer is still the entry under the text of its
request, at the place that was told. -/
theorem answers_obtainAll (c : EncoderCache) (requests : List Schema) :
    ∀ pair ∈ requests.zip (c.obtainAll requests).1,
      (c.obtainAll requests).2.Answers pair.1 pair.2 := by
  induction requests generalizing c with
  | nil => exact fun _ h => absurd h List.not_mem_nil
  | cons s rest ih =>
    intro pair hPair
    rcases List.mem_cons.mp hPair with rfl | hRest
    · -- the entry that answered the first request stays where it is
      have hEntry : (c.obtain s).2.entries[(c.obtain s).1.1]? = _ := c.answers_obtain s
      obtain ⟨more, hMore⟩ := entries_obtainAll (c.obtain s).2 rest
      obtain ⟨hIndex, -⟩ := List.getElem?_eq_some_iff.mp hEntry
      rw [obtainAll, Answers]
      dsimp only
      rw [← hMore, List.getElem?_append_left hIndex, hEntry]
    · exact ih (c.obtain s).2 pair hRest

/-- A run of requests, from an empty cache, on schemas in which no unknown
type bears the name of a known scalar. Every answer is the encoder that
compiling the schema anew would make; two answers are one entry exactly when
the requests have the same text; and there are as many entries as texts. -/
theorem obtainAll_transparent (escaping : Json.Escaping) (requests : List Schema)
    (hKeys : ∀ s ∈ requests, s.Everywhere Schema.KeysDistinct)
    (hNames : ∀ s ∈ requests, s.Everywhere Schema.Unshadowed) :
    let run := obtainAll { escaping } requests
    run.1.length = requests.length ∧
      (∀ pair ∈ requests.zip run.1, pair.2.2 = Encoder.ofSchema pair.1 escaping) ∧
      (∀ pair ∈ requests.zip run.1,
        run.2.entries[pair.2.1]? = some (pair.1.documentText, pair.2.2)) ∧
      (∀ one ∈ requests.zip run.1, ∀ other ∈ requests.zip run.1,
        one.2.1 = other.2.1 ↔ one.1.documentText = other.1.documentText) ∧
      run.2.size = (requests.map Schema.documentText).dedup.length := by
  intro run
  have hHolds : run.2.Holds escaping requests := (Holds.empty escaping).obtainAll requests
  have hAnswers : ∀ pair ∈ requests.zip run.1, run.2.Answers pair.1 pair.2 :=
    answers_obtainAll { escaping } requests
  have hEncoder : ∀ pair ∈ requests.zip run.1, pair.2.2 = Encoder.ofSchema pair.1 escaping := by
    intro pair hPair
    have hRequest : pair.1 ∈ requests := (List.of_mem_zip hPair).1
    -- the encoder may have been made of another schema with the same text
    obtain ⟨t, ht, hText, hMade⟩ :=
      hHolds.made _ (List.mem_of_getElem? (hAnswers pair hPair))
    have hPlan := Schema.ofSchema_eq_of_documentText (hKeys t ht) (hNames t ht)
      (hKeys _ hRequest) (hNames _ hRequest) hText
    rw [hMade, Encoder.ofSchema, Encoder.ofSchema, hPlan]
  -- where an answer stands depends on its text alone
  have hPlace : ∀ pair ∈ requests.zip run.1,
      (Fields.keys run.2.entries)[pair.2.1]? = some pair.1.documentText := by
    intro pair hPair
    have hEntry : run.2.entries[pair.2.1]? = _ := hAnswers pair hPair
    rw [Fields.keys, List.getElem?_map, hEntry]
    rfl
  refine ⟨length_obtainAll { escaping } requests, hEncoder, hAnswers,
    fun one hOne other hOther => ?_, hHolds.size_eq⟩
  have hOnePlace := hPlace one hOne
  have hOtherPlace := hPlace other hOther
  constructor
  · -- two texts at one place are one text
    intro hIndex
    rw [hIndex, hOtherPlace] at hOnePlace
    exact (Option.some.inj hOnePlace).symm
  · intro hText
    -- a text stands at one place only
    obtain ⟨hBound, -⟩ := List.getElem?_eq_some_iff.mp hOnePlace
    rw [hText, ← hOtherPlace] at hOnePlace
    exact (List.getElem?_inj hBound hHolds.distinct).mp hOnePlace

/-- An object with one property that is required, whatever its own list of
required keys says. -/
def listing (required : List String) : Schema :=
  .object [("id", .scalar .number {})] required false {}

/-- Two schemas that differ in their lists of required keys alone, and a
third one. -/
theorem obtainAll_transparent_listing :
    let requests := [listing ["id"], listing [], Schema.string]
    let run := obtainAll { escaping := .json } requests
    (∀ s ∈ requests, s.Everywhere Schema.KeysDistinct) ∧
      (∀ s ∈ requests, s.Everywhere Schema.Unshadowed) ∧
      (∀ pair ∈ requests.zip run.1, pair.2.2 = Encoder.ofSchema pair.1 .json) ∧
      run.2.size = (requests.map Schema.documentText).dedup.length := by
  -- one key at most is declared by each of them, and no name is that of a kind
  have hKeys : ∀ s ∈ [listing ["id"], listing [], Schema.string],
      s.Everywhere Schema.KeysDistinct := by
    simp only [List.forall_mem_cons]
    exact ⟨⟨List.nodup_singleton _, trivial, trivial⟩, ⟨List.nodup_singleton _, trivial, trivial⟩,
      trivial, fun _ h => absurd h List.not_mem_nil⟩
  have hNames : ∀ s ∈ [listing ["id"], listing [], Schema.string],
      s.Everywhere Schema.Unshadowed := by
    simp only [List.forall_mem_cons]
    exact ⟨⟨trivial, trivial, trivial⟩, ⟨trivial, trivial, trivial⟩, trivial,
      fun _ h => absurd h List.not_mem_nil⟩
  obtain ⟨-, hEncoders, -, -, hSize⟩ := obtainAll_transparent .json _ hKeys hNames
  exact ⟨hKeys, hNames, hEncoders, hSize⟩

example : (obtainAll { escaping := .json }
    [listing ["id"], listing [], Schema.string]).2.size = 2 := by
  decide +kernel

end EncoderCache

end JsonStencil
