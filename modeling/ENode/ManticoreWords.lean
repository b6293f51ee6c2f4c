import ENode.FullTextReading
import ENode.RuneSplits
import ENode.SearchManticore
import ENode.NameIndexSearch

/-! The words Manticore is asked for. A run of letters and digits holds none of the characters the
query syntax reserves, so a text leaf is read back as the group of its words. -/
namespace ENode.Storage

open GoText FullText List

/-- What is asked of the tables: letters and digits stay such in lower case, and the characters that
the query syntax reserves are none. -/
structure QueryLetters (u : Unicode) : Prop where
  cased : ∀ c, u.alnum c = true → u.alnum (u.toLower c) = true
  reserved : ∀ c ∈ [' ','(',')','|','-','@'], u.alnum c = false

def decoded (s : Bytes) : List Char := (runes s).map Prod.fst

theorem decoded_encode (text : List Char) : decoded (encode text) = text := by
  rw [decoded,runes_encode,map_map]
  exact map_id text

section
variable {u : Unicode} (isContinuousScript : Char → Bool)

def WordBytes (s : Bytes) : Prop := ∃ word, Plain word ∧ s = encode word

/-- Characters that may stand anywhere in a word. -/
def Clean (chars : List Char) : Prop := ∀ c ∈ chars, c ∉ [' ','(',')','|','-','@']

theorem Clean.plain (clean : Clean chars) (occupied : chars ≠ []) : Plain chars := ⟨occupied,clean⟩

theorem Clean.around (clean : Clean chars) (mark : Char)
    (free : mark ∉ [' ','(',')','|','-','@']) : Plain (mark :: (chars ++ [mark])) := by
  refine ⟨by simp,forall_mem_cons.mpr ⟨free,fun c member => ?_⟩⟩
  rcases mem_append.mp member with inside | last
  · exact clean c inside
  · rw [mem_singleton.mp last]
    exact free

variable {seg : List Char}

theorem segment_words (cont : Bool) (clean : Clean seg) :
    ∀ term ∈ manticoreSegment cont (encode seg), WordBytes term := by
  intro _ member
  unfold manticoreSegment at member
  split_ifs at member with empty phrase short
  · cases member
  · refine ⟨_,clean.around '"' (by simp),?_⟩
    rw [mem_singleton.mp member,encode_cons,encode_append]
    simp [lit]
  · refine ⟨seg,clean.plain fun none_ => empty (by rw [none_]; rfl),mem_singleton.mp member⟩
  · refine ⟨_,clean.around '*' (by simp),?_⟩
    rw [mem_singleton.mp member,encode_cons,encode_append]
    simp [lit]

theorem segment_some (cont : Bool) (occupied : seg ≠ []) : manticoreSegment cont (encode seg) ≠ [] := by
  unfold manticoreSegment
  have some_ := (encode_length_pos seg).mpr occupied
  rw [if_neg (by omega)]
  split_ifs <;> simp

/-- The loop over a run: the terms so far are words and the builder holds what may stand in one. -/
structure RunState (state : List Bytes × Bytes × Bool) (seg : List Char) : Prop where
  words : ∀ term ∈ state.1, WordBytes term
  builder : state.2.1 = encode seg
  clean : Clean seg

theorem RunState.step (h : RunState state seg)
    (free : c ∉ [' ','(',')','|','-','@']) :
    ∃ seg', seg' ≠ [] ∧ RunState (manticoreRunStep isContinuousScript state (c,String.utf8EncodeChar c)) seg' := by
  unfold manticoreRunStep
  split_ifs with turn
  · refine ⟨[c],by simp,fun term member => ?_,by simp,by simpa [Clean] using free⟩
    rcases mem_append.mp member with old | new
    · exact h.words term old
    · rw [h.builder] at new
      exact segment_words _ h.clean term new
  · refine ⟨seg ++ [c],by simp,h.words,by simp [h.builder],fun d member => ?_⟩
    rcases mem_append.mp member with old | new
    · exact h.clean d old
    · rw [mem_singleton.mp new]
      exact free

theorem RunState.run (free : Clean chars)
    (h : RunState state seg) : ∃ seg', (chars ≠ [] ∨ seg ≠ [] → seg' ≠ []) ∧
      RunState ((chars.map fun c => (c,String.utf8EncodeChar c)).foldl (manticoreRunStep isContinuousScript) state) seg' := by
  induction chars generalizing state seg with
  | nil => exact ⟨seg,fun some_ => some_.resolve_left (by simp),h⟩
  | cons c _ ih =>
    obtain ⟨_,occupied,h₁⟩ := h.step isContinuousScript (free c (.head _))
    obtain ⟨seg₂,some_,h₂⟩ := ih (fun d member => free d (.tail _ member)) h₁
    exact ⟨seg₂,fun _ => some_ (.inr occupied),h₂⟩

theorem runTerms_words (occupied : chars ≠ []) (clean : Clean chars) :
    manticoreRunTerms isContinuousScript (encode chars) ≠ [] ∧
    ∀ term ∈ manticoreRunTerms isContinuousScript (encode chars), WordBytes term := by
  have start : RunState ([],[],false) [] := ⟨by simp,rfl,by simp [Clean]⟩
  obtain ⟨_,some_,h⟩ := start.run isContinuousScript clean
  unfold manticoreRunTerms
  rw [runes_encode]
  dsimp only
  rw [h.builder]
  refine ⟨fun none_ => segment_some _ (some_ (.inl occupied)) (append_eq_nil_iff.mp none_).2,fun term member => ?_⟩
  rcases mem_append.mp member with old | new
  · exact h.words term old
  · exact segment_words _ h.clean term new

def leafTerms (u : Unicode) (text : Bytes) : List Bytes :=
  (splitTerms u text).flatMap (fun term =>
    (alnumRuns u term).flatMap (fun run => manticoreRunTerms isContinuousScript (toLower u run)))

theorem lowered_run (letters : QueryLetters u) (isRun : run ∈ alnumRuns u term) :
    ∃ chars, chars ≠ [] ∧ Clean chars ∧ toLower u run = encode chars := by
  rw [alnumRuns_eq,mem_map] at isRun
  obtain ⟨chars,isRun,rfl⟩ := isRun
  obtain ⟨nonempty,alnum⟩ := runsFrom_spec u.alnum [] _ (by simp) chars isRun
  refine ⟨chars.map u.toLower,by simpa using nonempty,fun _ member reserved => ?_,?_⟩
  · obtain ⟨d,inside,rfl⟩ := mem_map.mp member
    have no := letters.reserved _ reserved
    rw [letters.cased d (alnum d inside)] at no
    cases no
  · rw [toLower,lowered,runes_encode,map_map]
    rfl

variable {text : Bytes}

theorem leafTerms_words (letters : QueryLetters u)
    (member : term ∈ leafTerms isContinuousScript u text) : WordBytes term := by
  obtain ⟨_,_,inTerm⟩ := mem_flatMap.mp member
  obtain ⟨_,isRun,inRun⟩ := mem_flatMap.mp inTerm
  obtain ⟨_,occupied,clean,same⟩ := lowered_run letters isRun
  rw [same] at inRun
  exact (runTerms_words isContinuousScript occupied clean).2 term inRun

def leafWords (u : Unicode) (text : Bytes) : List (List Char) := (leafTerms isContinuousScript u text).map decoded

theorem leafWords_plain (letters : QueryLetters u) : (∀ word ∈ leafWords isContinuousScript u text, Plain word) ∧
    (leafWords isContinuousScript u text).map encode = leafTerms isContinuousScript u text := by
  refine ⟨fun word member => ?_,?_⟩
  · obtain ⟨term,inside,rfl⟩ := mem_map.mp member
    obtain ⟨word,plain,rfl⟩ := leafTerms_words isContinuousScript letters inside
    rw [decoded_encode]
    exact plain
  · rw [leafWords,map_map]
    refine (map_congr_left fun _ inside => ?_).trans (map_id _)
    obtain ⟨_,_,rfl⟩ := leafTerms_words isContinuousScript letters inside
    rw [Function.comp,decoded_encode]
    rfl

theorem leafWords_some (letters : QueryLetters u) (terms : splitTerms u text ≠ [])
    (runs : ∀ term ∈ splitTerms u text, alnumRuns u term ≠ []) : leafWords isContinuousScript u text ≠ [] := by
  obtain ⟨term,_,shape⟩ := exists_cons_of_ne_nil terms
  have first : term ∈ splitTerms u text := by simp [shape]
  obtain ⟨run,_,runShape⟩ := exists_cons_of_ne_nil (runs term first)
  have isRun : run ∈ alnumRuns u term := by simp [runShape]
  obtain ⟨_,occupied,clean,same⟩ := lowered_run letters isRun
  obtain ⟨_,inside⟩ := exists_mem_of_ne_nil _ (runTerms_words isContinuousScript occupied clean).1
  rw [← same] at inside
  rw [leafWords,Ne,map_eq_nil_iff]
  exact ne_nil_of_mem (mem_flatMap.mpr ⟨term,first,mem_flatMap.mpr ⟨run,isRun,inside⟩⟩)

theorem encode_intercalate (words : List (List Char)) :
    encode ([' '].intercalate words) = (lit " ").intercalate (words.map encode) := by
  induction words with
  | nil => rfl
  | cons _ words ih =>
    cases words with
    | nil => simp
    | cons _ _ =>
      rw [intercalate_cons_cons,encode_append,encode_append,ih]
      simp only [map_cons,intercalate_cons_cons]
      rfl

/-- What a text leaf is rendered as. -/
theorem manticoreTextLeaf_cases (letters : QueryLetters u) (field : String) (text : Bytes) :
    manticoreTextLeaf u isContinuousScript field text = mContradiction ∧ splitTerms u text = [] ∨
    manticoreTextLeaf u isContinuousScript field text = mUnsupported ∧ splitTerms u text ≠ [] ∨
    manticoreTextLeaf u isContinuousScript field text =
        { matchExpr := encode (Query.group field.toList (leafWords isContinuousScript u text)).text } ∧
      splitTerms u text ≠ [] ∧ leafWords isContinuousScript u text ≠ [] := by
  unfold manticoreTextLeaf
  dsimp only
  split_ifs with blank punctuation
  · exact .inl ⟨rfl,length_eq_zero_iff.mp blank⟩
  · exact .inr (.inl ⟨rfl,fun none_ => blank (by rw [none_]; rfl)⟩)
  · have terms : splitTerms u text ≠ [] := fun none_ => blank (by rw [none_]; rfl)
    refine .inr (.inr ⟨?_,terms,leafWords_some isContinuousScript letters terms fun term member none_ => ?_⟩)
    · congr 1
      rw [Query.text,encode_cons,encode_cons,encode_append,encode_cons,encode_append,encode_intercalate,
        (leafWords_plain isContinuousScript letters).2]
      simp [lit,leafTerms]
    · exact punctuation (any_eq_true.mpr ⟨term,member,by simp [none_]⟩)

end

end ENode.Storage
