import Mathlib

/-! Reading a full-text query back from its text. Words that stand side by side are all asked for,
a bar binds tighter than that, a minus excludes what follows it, and a field name limits the rest of
its brackets. A query is read with a truth value for each of its words. -/
namespace ENode.FullText
open List

inductive Token (α : Type) where
  | opening
  | closing
  | bar
  | minus
  | field (name : List Char)
  | word (a : α)
  deriving DecidableEq

def Token.map (f : α → β) : Token α → Token β
  | opening => opening
  | closing => closing
  | bar => bar
  | minus => minus
  | field name => field name
  | word a => word (f a)

def flush : List Char → List (Token (List Char))
  | [] => []
  | '@' :: name => [.field name]
  | word => [.word word]

/-- The tokens of a text, with the characters of a word begun. -/
def lexFrom : List Char → List Char → List (Token (List Char))
  | cur, [] => flush cur
  | cur, c :: s =>
    if c = ' ' then flush cur ++ lexFrom [] s
    else if c = '(' then flush cur ++ .opening :: lexFrom [] s
    else if c = ')' then flush cur ++ .closing :: lexFrom [] s
    else if c = '|' then flush cur ++ .bar :: lexFrom [] s
    else if c = '-' ∧ cur = [] then .minus :: lexFrom [] s
    else lexFrom (cur ++ [c]) s

def lex (s : List Char) : List (Token (List Char)) := lexFrom [] s

mutual

/-- Everything up to a closing bracket or the end, side by side. -/
def readAll : Nat → List (Token Bool) → Option (Bool × List (Token Bool))
  | 0, _ => none
  | fuel+1, tokens =>
    match readAny fuel tokens with
    | none => none
    | some (a,[]) => some (a,[])
    | some (a,.closing :: rest) => some (a,.closing :: rest)
    | some (a,rest) =>
      match readAll fuel rest with
      | none => none
      | some (b,rest) => some (a && b,rest)

def readAny : Nat → List (Token Bool) → Option (Bool × List (Token Bool))
  | 0, _ => none
  | fuel+1, tokens =>
    match readOne fuel tokens with
    | none => none
    | some (a,.bar :: rest) =>
      match readAny fuel rest with
      | none => none
      | some (b,rest) => some (a || b,rest)
    | some (a,rest) => some (a,rest)

def readOne : Nat → List (Token Bool) → Option (Bool × List (Token Bool))
  | 0, _ => none
  | fuel+1, tokens =>
    match tokens with
    | .word a :: rest => some (a,rest)
    | .field _ :: rest => readOne fuel rest
    | .minus :: rest =>
      match readOne fuel rest with
      | none => none
      | some (a,rest) => some (!a,rest)
    | .opening :: rest =>
      match readAll fuel rest with
      | some (a,.closing :: rest) => some (a,rest)
      | _ => none
    | _ => none

end

/-- The truth of a whole query; each bracket level takes three calls. -/
def read (tokens : List (Token Bool)) : Option Bool :=
  match readAll (3 * tokens.length + 3) tokens with
  | some (a,[]) => some a
  | _ => none

/-- Gives the words, in their order, the values of a list. -/
def label : List (Token α) → List Bool → List (Token Bool)
  | [], _ => []
  | .word _ :: rest, v :: values => .word v :: label rest values
  | .word _ :: rest, [] => .word false :: label rest []
  | .opening :: rest, values => .opening :: label rest values
  | .closing :: rest, values => .closing :: label rest values
  | .bar :: rest, values => .bar :: label rest values
  | .minus :: rest, values => .minus :: label rest values
  | .field name :: rest, values => .field name :: label rest values

/-- The words of a query with the field each is limited to. The list holds the fields of the brackets
that are open, the innermost first. -/
def occurrences : List (List Char) → List (Token α) → List (List Char × α)
  | _, [] => []
  | fields, .word a :: rest => (fields.headD [],a) :: occurrences fields rest
  | fields, .field name :: rest => occurrences (name :: fields.tail) rest
  | fields, .opening :: rest => occurrences (fields.headD [] :: fields) rest
  | fields, .closing :: rest => occurrences fields.tail rest
  | fields, .bar :: rest => occurrences fields rest
  | fields, .minus :: rest => occurrences fields rest

/-- Queries as they are written: groups of words of one field, put together so that no operator is
left to precedence. -/
inductive Query (α : Type) where
  | group (field : List Char) (terms : List α)
  | and (left right : Query α)
  | or (left right : Query α)
  | andNot (left right : Query α)

namespace Query

def map (f : α → β) : Query α → Query β
  | group field terms => group field (terms.map f)
  | and left right => and (left.map f) (right.map f)
  | or left right => or (left.map f) (right.map f)
  | andNot left right => andNot (left.map f) (right.map f)

def terms : Query α → List α
  | group _ terms => terms
  | and left right | or left right | andNot left right => left.terms ++ right.terms

def tokens : Query α → List (Token α)
  | group field terms => .opening :: .field field :: (terms.map .word ++ [.closing])
  | and left right => left.tokens ++ right.tokens
  | or left right =>
    .opening :: .opening :: (left.tokens ++ .closing :: .bar :: .opening :: (right.tokens ++ [.closing,.closing]))
  | andNot left right => left.tokens ++ .minus :: .opening :: (right.tokens ++ [.closing])

def text : Query (List Char) → List Char
  | group field terms => '(' :: '@' :: (field ++ ' ' :: ([' '].intercalate terms ++ [')']))
  | and left right => left.text ++ ' ' :: right.text
  | or left right => '(' :: '(' :: (left.text ++ ')' :: ' ' :: '|' :: ' ' :: '(' :: (right.text ++ [')',')']))
  | andNot left right => left.text ++ ' ' :: '-' :: '(' :: (right.text ++ [')'])

def eval : Query Bool → Bool
  | group _ terms => terms.all id
  | and left right => left.eval && right.eval
  | or left right => left.eval || right.eval
  | andNot left right => left.eval && !right.eval

def placed : Query α → List (List Char × α)
  | group field terms => terms.map (field,·)
  | and left right | or left right | andNot left right => left.placed ++ right.placed

end Query

def AllYields (tokens : List (Token Bool)) (a : Bool) (rest : List (Token Bool)) : Prop :=
  ∀ fuel, 3 * tokens.length + 3 ≤ fuel → readAll fuel tokens = some (a,rest)

def AnyYields (tokens : List (Token Bool)) (a : Bool) (rest : List (Token Bool)) : Prop :=
  ∀ fuel, 3 * tokens.length + 2 ≤ fuel → readAny fuel tokens = some (a,rest)

def OneYields (tokens : List (Token Bool)) (a : Bool) (rest : List (Token Bool)) : Prop :=
  ∀ fuel, 3 * tokens.length + 1 ≤ fuel → readOne fuel tokens = some (a,rest)

section
variable {tokens rest rest' : List (Token Bool)} {b : Bool}

theorem OneYields.word (a : Bool) (rest : List (Token Bool)) : OneYields (.word a :: rest) a rest := by
  intro fuel _
  cases fuel with
  | zero => omega
  | succ _ => rfl

theorem OneYields.field (name : List Char) (one : OneYields tokens a rest) :
    OneYields (.field name :: tokens) a rest := by
  intro fuel enough
  rw [length_cons] at enough
  cases fuel with
  | zero => omega
  | succ fuel => exact one fuel (by omega)

theorem OneYields.minus (one : OneYields tokens a rest) : OneYields (.minus :: tokens) (!a) rest := by
  intro fuel enough
  rw [length_cons] at enough
  cases fuel with
  | zero => omega
  | succ fuel => rw [readOne,one fuel (by omega)]

theorem OneYields.group (all : AllYields inside a (.closing :: rest)) : OneYields (.opening :: inside) a rest := by
  intro fuel enough
  rw [length_cons] at enough
  cases fuel with
  | zero => omega
  | succ fuel => rw [readOne,all fuel (by omega)]

theorem AnyYields.one (one : OneYields tokens a rest) (single : rest.head? ≠ some .bar) : AnyYields tokens a rest := by
  intro fuel _
  cases fuel with
  | zero => omega
  | succ fuel =>
    rw [readAny,one fuel (by omega)]
    cases rest with
    | nil => rfl
    | cons t _ =>
      cases t with
      | bar => exact absurd rfl single
      | opening | closing | minus | field | word => rfl

theorem AnyYields.bar (one : OneYields tokens a (.bar :: rest)) (shorter : rest.length < tokens.length)
    (other : AnyYields rest b rest') : AnyYields tokens (a || b) rest' := by
  intro fuel _
  cases fuel with
  | zero => omega
  | succ fuel =>
    rw [readAny,one fuel (by omega)]
    simp only [other fuel (by omega)]

/-- What may follow a query: nothing, or the bracket that closes around it. -/
def Ends (rest : List (Token α)) : Prop := rest = [] ∨ rest.head? = some .closing

theorem AllYields.last (any : AnyYields tokens a rest) (ends : Ends rest) : AllYields tokens a rest := by
  intro fuel _
  cases fuel with
  | zero => omega
  | succ fuel =>
    rw [readAll,any fuel (by omega)]
    cases rest with
    | nil => rfl
    | cons _ _ =>
      rcases ends with no | closed
      · cases no
      · cases closed
        rfl

theorem AllYields.more (any : AnyYields tokens a rest) (goes : ¬Ends rest) (shorter : rest.length < tokens.length)
    (others : AllYields rest b rest') : AllYields tokens (a && b) rest' := by
  intro fuel _
  cases fuel with
  | zero => omega
  | succ fuel =>
    rw [readAll,any fuel (by omega)]
    cases rest with
    | nil => exact absurd (.inl rfl) goes
    | cons t _ =>
      cases t with
      | closing => exact absurd (.inr rfl) goes
      | opening | bar | minus | field | word => simp only [others fuel (by omega)]

/-- What may stand next to a query: a bracket that opens, or a minus. -/
def Starts (rest : List (Token α)) : Prop := rest.head? = some .opening ∨ rest.head? = some .minus

variable {rest : List (Token α)}

theorem Starts.not_ends (starts : Starts rest) : ¬Ends rest := by
  rintro (rfl | closed)
  · rcases starts with no | no <;> cases no
  · rcases starts with opened | opened <;> rw [closed] at opened <;> cases opened

theorem Starts.not_bar (starts : Starts rest) : rest.head? ≠ some .bar := by
  intro bar
  rcases starts with opened | opened <;> rw [bar] at opened <;> cases opened

theorem Ends.not_bar (ends : Ends rest) : rest.head? ≠ some .bar := by
  intro bar
  rcases ends with rfl | closed
  · cases bar
  · rw [bar] at closed
    cases closed

/-- How a query is read in front of what may follow it. -/
structure Spells (tokens : List (Token Bool)) (value : Bool) : Prop where
  starts : Starts tokens
  last : ∀ rest, Ends rest → AllYields (tokens ++ rest) value rest
  more : ∀ rest b rest', Starts rest → AllYields rest b rest' → AllYields (tokens ++ rest) (value && b) rest'

theorem Spells.of_one (starts : Starts tokens) (one : ∀ rest, OneYields (tokens ++ rest) a rest) : Spells tokens a := by
  have occupied : 0 < tokens.length := by
    rcases tokens with _ | ⟨_,_⟩
    · rcases starts with no | no <;> cases no
    · exact Nat.succ_pos _
  refine ⟨starts,fun rest ends => .last (.one (one rest) ends.not_bar) ends,fun rest _ _ next others => ?_⟩
  refine .more (.one (one rest) next.not_bar) next.not_ends ?_ others
  rw [length_append]
  omega

theorem Spells.grouped (inside : Spells tokens a) (rest : List (Token Bool)) :
    OneYields (.opening :: (tokens ++ .closing :: rest)) a rest :=
  .group (inside.last _ (.inr rfl))

theorem Starts.append (starts : Starts s) (t : List (Token α)) : Starts (s ++ t) := by
  cases s with
  | nil => rcases starts with no | no <;> cases no
  | cons _ _ => exact starts

theorem Spells.append (left : Spells s a) (right : Spells t b) : Spells (s ++ t) (a && b) := by
  refine ⟨left.starts.append t,fun rest ends => ?_,fun rest c rest' next others => ?_⟩
  · rw [append_assoc]
    exact left.more _ _ _ (right.starts.append rest) (right.last rest ends)
  · rw [append_assoc,Bool.and_assoc]
    exact left.more _ _ _ (right.starts.append rest) (right.more rest c rest' next others)

theorem words_yield (front : List (Token Bool)) (occupied : front ≠ []) (term : Bool) (terms : List Bool)
    (rest : List (Token Bool)) (one : OneYields (front ++ (terms.map .word ++ .closing :: rest)) term
      (terms.map .word ++ .closing :: rest)) :
    AllYields (front ++ (terms.map .word ++ .closing :: rest)) (term && terms.all id) (.closing :: rest) := by
  induction terms generalizing front term with
  | nil =>
    rw [all_nil,Bool.and_true]
    exact .last (.one one (by simp)) (.inr rfl)
  | cons t _ ih =>
    refine .more (.one one (by simp)) (by simp [Ends]) ?_ (ih [.word t] (by simp) t (.word t _))
    have some_ := length_pos_iff.mpr occupied
    simp only [length_append]
    omega

end

namespace Query

/-- Every group asks for something. -/
def Occupied : Query α → Prop
  | group _ terms => terms ≠ []
  | and left right | or left right | andNot left right => left.Occupied ∧ right.Occupied

theorem spells (q : Query Bool) (occupied : q.Occupied) : Spells q.tokens q.eval := by
  induction q with
  | group field terms =>
    refine .of_one (.inl rfl) fun rest => ?_
    cases terms with
    | nil => exact absurd rfl occupied
    | cons term terms =>
      have all := words_yield [.field field,.word term] (by simp) term terms rest (.field field (.word term _))
      have shape : (group field (term :: terms)).tokens ++ rest =
          .opening :: ([.field field,.word term] ++ (terms.map .word ++ .closing :: rest)) := by simp [tokens]
      rw [shape]
      exact .group all
  | and left right ihl ihr => exact (ihl occupied.1).append (ihr occupied.2)
  | or left right ihl ihr =>
    refine .of_one (.inl rfl) fun rest => ?_
    have second := (ihr occupied.2).grouped (.closing :: rest)
    have first := (ihl occupied.1).grouped (.bar :: .opening :: (right.tokens ++ .closing :: .closing :: rest))
    have shape : (or left right).tokens ++ rest = .opening :: .opening :: (left.tokens ++
        .closing :: .bar :: .opening :: (right.tokens ++ .closing :: .closing :: rest)) := by simp [tokens]
    rw [shape]
    refine .group (.last (.bar first ?_ (.one second (by simp))) (.inr rfl))
    simp only [length_cons,length_append]
    omega
  | andNot _ right ihl ihr =>
    have excluded : Spells (.minus :: .opening :: (right.tokens ++ [.closing])) (!right.eval) := by
      refine .of_one (.inr rfl) fun rest => ?_
      have inner := (ihr occupied.2).grouped rest
      have shape : .minus :: .opening :: (right.tokens ++ [.closing]) ++ rest =
          .minus :: .opening :: (right.tokens ++ .closing :: rest) := by simp
      rw [shape]
      exact inner.minus
    exact (ihl occupied.1).append excluded

theorem read_tokens (q : Query Bool) (occupied : q.Occupied) : read q.tokens = some q.eval := by
  have whole := (q.spells occupied).last [] (.inl rfl) _ (le_refl _)
  rw [append_nil] at whole
  rw [read,whole]

end Query

def words : List (Token α) → List α
  | [] => []
  | .word a :: rest => a :: words rest
  | .opening :: rest | .closing :: rest | .bar :: rest | .minus :: rest | .field _ :: rest => words rest

theorem words_append (s t : List (Token α)) : words (s ++ t) = words s ++ words t := by
  induction s with
  | nil => rfl
  | cons first _ ih => cases first <;> simp [words,ih]

theorem words_map_word (terms : List α) : words (terms.map .word) = terms := by
  induction terms with
  | nil => rfl
  | cons _ _ ih => simp [words,ih]

theorem label_words (tokens : List (Token α)) (f : α → Bool) : label tokens ((words tokens).map f) = tokens.map (.map f) := by
  induction tokens with
  | nil => rfl
  | cons first _ ih => cases first <;> simp [words,label,Token.map,ih]

theorem label_map (tokens : List (Token α)) (f : α → β) (values : List Bool) :
    label (tokens.map (.map f)) values = label tokens values := by
  induction tokens generalizing values with
  | nil => rfl
  | cons first _ ih => cases first <;> cases values <;> simp [label,Token.map,ih]

theorem occurrences_words (fields : List (List Char)) (terms : List α) (rest : List (Token α)) :
    occurrences fields (terms.map .word ++ rest) = terms.map (fields.headD [],·) ++ occurrences fields rest := by
  induction terms with
  | nil => rfl
  | cons _ _ ih => simp [occurrences,ih]

namespace Query

theorem words_tokens (q : Query α) : words q.tokens = q.terms := by
  induction q with
  | group _ _ => simp [tokens,Query.terms,words,words_append,words_map_word]
  | and left right ihl ihr | or left right ihl ihr | andNot _ _ ihl ihr =>
    simp [tokens,Query.terms,words,words_append,ihl,ihr]

theorem tokens_map (q : Query α) (f : α → β) : (q.map f).tokens = q.tokens.map (.map f) := by
  induction q with
  | group _ _ => simp [tokens,map,Token.map]
  | and left right ihl ihr | or left right ihl ihr | andNot _ _ ihl ihr => simp [tokens,map,Token.map,ihl,ihr]

theorem occupied_map (q : Query α) (f : α → β) : (q.map f).Occupied ↔ q.Occupied := by
  induction q with
  | group _ _ => simp [Occupied,map]
  | and left right ihl ihr | or left right ihl ihr | andNot _ _ ihl ihr => simp [Occupied,map,ihl,ihr]

theorem occurrences_tokens (q : Query α) (fields : List (List Char)) (rest : List (Token α)) :
    occurrences fields (q.tokens ++ rest) = q.placed ++ occurrences fields rest := by
  induction q generalizing fields rest with
  | group _ _ => simp [tokens,placed,occurrences,occurrences_words]
  | and left right ihl ihr => simp [tokens,placed,ihl,ihr]
  | or left right ihl ihr | andNot _ _ ihl ihr => simp [tokens,placed,occurrences,ihl,ihr]

theorem read_label (q : Query α) (occupied : q.Occupied) (f : α → Bool) :
    read (label q.tokens (q.terms.map f)) = some (q.map f).eval := by
  rw [← words_tokens,label_words,← tokens_map]
  exact read_tokens _ ((occupied_map q f).mpr occupied)

end Query

/-- A word of the query language: nothing in it is read as an operator. -/
def Plain (word : List Char) : Prop := word ≠ [] ∧ ∀ c ∈ word, c ∉ [' ','(',')','|','-','@']

theorem lexFrom_word (word cur s : List Char) (plain : ∀ c ∈ word, c ∉ [' ','(',')','|','-']) :
    lexFrom cur (word ++ s) = lexFrom (cur ++ word) s := by
  induction word generalizing cur with
  | nil => rw [append_nil,nil_append]
  | cons c _ ih =>
    have here := plain c (.head _)
    simp only [mem_cons,not_mem_nil,or_false,not_or] at here
    rw [cons_append,lexFrom,if_neg here.1,if_neg here.2.1,if_neg here.2.2.1,if_neg here.2.2.2.1,
      if_neg (fun dash => here.2.2.2.2 dash.1),ih _ (fun d member => plain d (.tail _ member)),
      append_assoc]
    rfl

theorem lexFrom_space (cur s : List Char) : lexFrom cur (' ' :: s) = flush cur ++ lexFrom [] s := by
  rw [lexFrom,if_pos rfl]

theorem lexFrom_closing (cur s : List Char) : lexFrom cur (')' :: s) = flush cur ++ .closing :: lexFrom [] s := by
  rw [lexFrom,if_neg (by decide),if_neg (by decide),if_pos rfl]

variable (s : List Char)

theorem lexFrom_opening : lexFrom [] ('(' :: s) = .opening :: lexFrom [] s := by
  rw [lexFrom,if_neg (by decide),if_pos rfl]
  rfl

theorem lexFrom_bar : lexFrom [] ('|' :: s) = .bar :: lexFrom [] s := by
  rw [lexFrom,if_neg (by decide),if_neg (by decide),if_neg (by decide),if_pos rfl]
  rfl

theorem lexFrom_minus : lexFrom [] ('-' :: s) = .minus :: lexFrom [] s := by
  rw [lexFrom,if_neg (by decide),if_neg (by decide),if_neg (by decide),if_neg (by decide),if_pos ⟨rfl,rfl⟩]

theorem flush_plain (plain : Plain word) : flush word = [.word word] := by
  obtain ⟨occupied,clean⟩ := plain
  cases word with
  | nil => exact absurd rfl occupied
  | cons c _ =>
    have other : c ≠ '@' := fun same => clean c (.head _) (by simp [same])
    unfold flush
    split
    · next empty => cases empty
    · next equal => exact absurd (cons.inj equal).1 other
    · rfl

theorem Plain.skips (plain : Plain word) : ∀ c ∈ word, c ∉ [' ','(',')','|','-'] := by
  intro c member special
  refine plain.2 c member ?_
  simp only [mem_cons] at special ⊢
  tauto

theorem lexFrom_terms (occupied : terms ≠ []) (plain : ∀ t ∈ terms, Plain t) (s : List Char) :
    lexFrom [] ([' '].intercalate terms ++ ')' :: s) = terms.map .word ++ .closing :: lexFrom [] s := by
  induction terms with
  | nil => exact absurd rfl occupied
  | cons t terms ih =>
    have here := plain t (.head _)
    cases terms with
    | nil =>
      rw [intercalate_singleton,lexFrom_word t [] _ here.skips,nil_append,lexFrom_closing,flush_plain here]
      rfl
    | cons _ _ =>
      have later := ih (by simp) (fun x member => plain x (.tail _ member))
      rw [intercalate_cons_cons,append_assoc,append_assoc,lexFrom_word t [] _ here.skips,nil_append,
        singleton_append,lexFrom_space,flush_plain here,later]
      rfl

namespace Query

/-- Fields and words that are read as such. -/
def Spelled : Query (List Char) → Prop
  | group field terms => (∀ c ∈ field, c ∉ [' ','(',')','|','-']) ∧ terms ≠ [] ∧ ∀ t ∈ terms, Plain t
  | and left right | or left right | andNot left right => left.Spelled ∧ right.Spelled

theorem Spelled.occupied {q : Query (List Char)} (spelled : q.Spelled) : q.Occupied := by
  induction q with
  | group _ _ => exact spelled.2.1
  | and left right ihl ihr | or left right ihl ihr | andNot _ _ ihl ihr => exact ⟨ihl spelled.1,ihr spelled.2⟩

theorem lexFrom_text (q : Query (List Char)) (spelled : q.Spelled) (s : List Char) :
    lexFrom [] (q.text ++ s) = q.tokens ++ lexFrom [] s := by
  induction q generalizing s with
  | group field terms =>
    obtain ⟨name,occupied,plain⟩ := spelled
    have shape : (group field terms).text ++ s =
        '(' :: (('@' :: field) ++ ' ' :: ([' '].intercalate terms ++ ')' :: s)) := by simp [text]
    have limited : ∀ c ∈ '@' :: field, c ∉ [' ','(',')','|','-'] := forall_mem_cons.mpr ⟨by decide,name⟩
    rw [shape,lexFrom_opening,lexFrom_word _ [] _ limited,nil_append,lexFrom_space,lexFrom_terms occupied plain]
    simp [flush,tokens]
  | and left right ihl ihr =>
    rw [text,append_assoc,ihl spelled.1,cons_append,lexFrom_space,ihr spelled.2]
    simp [flush,tokens]
  | or left right ihl ihr =>
    have shape : (or left right).text ++ s =
        '(' :: '(' :: (left.text ++ ')' :: ' ' :: '|' :: ' ' :: '(' :: (right.text ++ ')' :: ')' :: s)) := by simp [text]
    simp only [shape,lexFrom_opening,ihl spelled.1,lexFrom_closing,lexFrom_space,lexFrom_bar,ihr spelled.2,flush,
      nil_append]
    simp [tokens]
  | andNot left right ihl ihr =>
    have shape : (andNot left right).text ++ s =
        left.text ++ ' ' :: '-' :: '(' :: (right.text ++ ')' :: s) := by simp [text]
    simp only [shape,ihl spelled.1,lexFrom_space,lexFrom_minus,lexFrom_opening,ihr spelled.2,lexFrom_closing,flush,
      nil_append]
    simp [tokens]

theorem lex_text (q : Query (List Char)) (spelled : q.Spelled) : lex q.text = q.tokens := by
  have whole := q.lexFrom_text spelled []
  rwa [append_nil,lexFrom,flush,append_nil] at whole

end Query

end ENode.FullText
