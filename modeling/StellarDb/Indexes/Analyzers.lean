import StellarDb.Lib.Gaps
import StellarDb.Lib.Keyspace

/-!
# StellarDb — custom analyzers (`storage/indexes/analyzers.rs`)

A definition names a tokenizer and a list of filters. `build_analyzer` reduces the list to four
flags (is there a lowercase filter, is there a folding one, the first known stemmer language, the
upper bound of the first length filter) and builds one of sixteen chains from them. Stop words,
lower bounds, repetitions, unknown languages and the order of the filters leave no trace in the
flags.

Every filter treats each token by itself, so a definition and the chain built for it agree when
they do so on the text of every token (`exact_iff_tokens`). Lowercasing, folding, stemming and
stop words are arbitrary functions here; which definitions are then built faithfully is said by
`analyzer_exact_iff`.
-/

namespace StellarDb

open Keyspaces

namespace Analyzers

/-! ## Definitions (`schema/types.rs`) -/

inductive TokenizerConfig where
  | standard
  | whitespace
  | ngram (min max : UInt8)
  | pattern (regex : String)
  deriving DecidableEq, Repr

inductive FilterConfig where
  | lowercase
  | stemmer (lang : String)
  | stopwords (lang : String)
  | length (min max : UInt8)
  | asciiFolding
  deriving DecidableEq, Repr

structure AnalyzerDef where
  name : String
  tokenizer : TokenizerConfig
  filters : List FilterConfig

/-! ## Tokenizers -/

/-- A token of a text, with its own text and where that stands. -/
structure Token where
  text : Bytes
  offsetFrom : Nat
  offsetTo : Nat
  position : Nat
  positionLength : Nat

/-- Tokens are never empty, and no two of one text stand at the same place. -/
structure Tokenizer where
  tokens : Bytes → List Token
  nonempty : ∀ text, ∀ t ∈ tokens text, t.text ≠ []
  distinct : ∀ text, ((tokens text).map fun t => (t.offsetFrom, t.offsetTo)).Nodup

/-- A compiled pattern finds its matches in order. -/
structure Regex where
  findIter : Bytes → List (Nat × Nat)
  spans : ∀ text, Gaps.Spans 0 text.length (findIter text)

/-- The tokenizers and the pattern compiler of third parties. -/
class TextEngine where
  simple : Tokenizer
  whitespace : Tokenizer
  /-- `NgramTokenizer::new` refuses other bounds. -/
  ngram : (min max : Nat) → 0 < min → min ≤ max → Tokenizer
  regex : String → Option Regex
  regex_default : (regex "[^\\w]+").isSome = true

namespace RegexTokenizer

variable (pattern : Regex) (text : Bytes)

/-- The parts that no match covers. -/
def splits : List (Nat × Nat) := Gaps.gaps 0 text.length (pattern.findIter text)

/-- The token at an index of the splits. -/
def tokenAt (split : (Nat × Nat) × Nat) : Token where
  text := (text.take split.1.2).drop split.1.1
  offsetFrom := split.1.1
  offsetTo := split.1.2
  position := split.2
  positionLength := 1

def tokens : List Token := (splits pattern text).zipIdx.map (tokenAt text)

theorem map_offsets :
    (tokens pattern text).map (fun t => (t.offsetFrom, t.offsetTo)) = splits pattern text := by
  rw [tokens, List.map_map]
  exact List.zipIdx_map_fst _ _

theorem mem_splits {split : Nat × Nat} (h : split ∈ splits pattern text) :
    split.1 < split.2 ∧ split.2 ≤ text.length := by
  have hfree := ((Gaps.mem_gaps_iff (pattern.spans text) split).mp h).1
  exact ⟨hfree.lt, hfree.le_hi⟩

theorem nodup_splits : (splits pattern text).Nodup := by
  have hordered := Gaps.pairwise_gaps (pattern.spans text)
  refine List.Pairwise.imp_of_mem ?_ hordered
  intro p q hp _ hpq heq
  have := (mem_splits pattern text hp).1
  rw [← heq] at hpq
  omega

end RegexTokenizer

/-- Split a text at the matches of a pattern. -/
def regexTokenizer (pattern : Regex) : Tokenizer where
  tokens := RegexTokenizer.tokens pattern
  nonempty text t ht := by
    obtain ⟨⟨split, i⟩, hsplit, rfl⟩ := List.mem_map.mp ht
    have hbounds : split.1 < split.2 ∧ split.2 ≤ text.length :=
      RegexTokenizer.mem_splits pattern text (List.fst_mem_of_mem_zipIdx hsplit)
    intro hnil
    have hlen : ((text.take split.2).drop split.1).length = 0 := by
      rw [show (text.take split.2).drop split.1 = [] from hnil, List.length_nil]
    rw [List.length_drop, List.length_take] at hlen
    omega
  distinct text := by
    rw [RegexTokenizer.map_offsets]
    exact RegexTokenizer.nodup_splits pattern text

/-! ## Languages and filters -/

inductive Language where
  | english | russian | french | german | spanish | italian | portuguese | dutch | swedish
  | norwegian | danish | finnish | hungarian | romanian | turkish | arabic | greek | tamil
  deriving DecidableEq, Repr

def parseLanguage (lang : String) : Option Language :=
  match lang.toLower with
  | "english" => some .english
  | "russian" => some .russian
  | "french" => some .french
  | "german" => some .german
  | "spanish" => some .spanish
  | "italian" => some .italian
  | "portuguese" => some .portuguese
  | "dutch" => some .dutch
  | "swedish" => some .swedish
  | "norwegian" => some .norwegian
  | "danish" => some .danish
  | "finnish" => some .finnish
  | "hungarian" => some .hungarian
  | "romanian" => some .romanian
  | "turkish" => some .turkish
  | "arabic" => some .arabic
  | "greek" => some .greek
  | "tamil" => some .tamil
  | _ => none

/-- A filter that rewrites a token. A stemmer of a name that is no known language is its own. -/
inductive Mapping where
  | lowercase
  | asciiFolding
  | stemmer (lang : Language)
  | unknownStemmer (name : String)
  deriving DecidableEq

/-- The functions on token texts that filters are made of. -/
structure TextMaps where
  map : Mapping → Bytes → Bytes
  stopword : String → Bytes → Bool

/-- A filter of the chain that is built. -/
inductive ChainFilter where
  | lowerCaser
  | asciiFolding
  | stemmer (lang : Language)
  /-- `RemoveLongFilter::limit` -/
  | removeLong (limit : Nat)

namespace ChainFilter

def run (maps : TextMaps) : ChainFilter → Bytes → Option Bytes
  | .lowerCaser, s => some (maps.map .lowercase s)
  | .asciiFolding, s => some (maps.map .asciiFolding s)
  | .stemmer lang, s => some (maps.map (.stemmer lang) s)
  | .removeLong limit, s => if s.length < limit then some s else none

end ChainFilter

/-- Rewrite the text of a token, or drop it. -/
def Token.onText (t : Token) (f : Bytes → Option Bytes) : Option Token :=
  (f t.text).map fun s => { t with text := s }

structure TextAnalyzer where
  tokenizer : Tokenizer
  filters : List ChainFilter

namespace TextAnalyzer

/-- What the chain makes of the text of a token. -/
def filterText (analyzer : TextAnalyzer) (maps : TextMaps) (s : Bytes) : Option Bytes :=
  analyzer.filters.foldlM (fun s f => f.run maps s) s

def analyze (analyzer : TextAnalyzer) (maps : TextMaps) (text : Bytes) : List Token :=
  (analyzer.tokenizer.tokens text).filterMap (·.onText (analyzer.filterText maps))

end TextAnalyzer

/-! ## Building -/

/-- Build the chain for the four flags. -/
def buildWithFilters (tokenizer : Tokenizer) (lowercase asciiFolding : Bool)
    (stemmer : Option Language) (maxLength : Option Nat) : TextAnalyzer :=
  match lowercase, asciiFolding, stemmer, maxLength with
  | false, false, none, none => ⟨tokenizer, []⟩
  | true, false, none, none => ⟨tokenizer, [.lowerCaser]⟩
  | false, true, none, none => ⟨tokenizer, [.asciiFolding]⟩
  | true, true, none, none => ⟨tokenizer, [.lowerCaser, .asciiFolding]⟩
  | false, false, some lang, none => ⟨tokenizer, [.stemmer lang]⟩
  | true, false, some lang, none => ⟨tokenizer, [.lowerCaser, .stemmer lang]⟩
  | false, true, some lang, none => ⟨tokenizer, [.asciiFolding, .stemmer lang]⟩
  | true, true, some lang, none => ⟨tokenizer, [.lowerCaser, .asciiFolding, .stemmer lang]⟩
  | false, false, none, some max => ⟨tokenizer, [.removeLong max]⟩
  | true, false, none, some max => ⟨tokenizer, [.lowerCaser, .removeLong max]⟩
  | false, true, none, some max => ⟨tokenizer, [.asciiFolding, .removeLong max]⟩
  | true, true, none, some max => ⟨tokenizer, [.lowerCaser, .asciiFolding, .removeLong max]⟩
  | false, false, some lang, some max => ⟨tokenizer, [.stemmer lang, .removeLong max]⟩
  | true, false, some lang, some max =>
    ⟨tokenizer, [.lowerCaser, .stemmer lang, .removeLong max]⟩
  | false, true, some lang, some max =>
    ⟨tokenizer, [.asciiFolding, .stemmer lang, .removeLong max]⟩
  | true, true, some lang, some max =>
    ⟨tokenizer, [.lowerCaser, .asciiFolding, .stemmer lang, .removeLong max]⟩

section Flags

variable (filters : List FilterConfig)

def hasLowercase : Bool := filters.any fun f =>
  match f with
  | .lowercase => true
  | _ => false

def hasAsciiFolding : Bool := filters.any fun f =>
  match f with
  | .asciiFolding => true
  | _ => false

def stemmerLang : Option Language := filters.findSome? fun f =>
  match f with
  | .stemmer lang => parseLanguage lang
  | _ => none

def maxLength : Option Nat := filters.findSome? fun f =>
  match f with
  | .length _ max => some max.toNat
  | _ => none

end Flags

section Build

variable [TextEngine]

/-- Build a `TextAnalyzer` from a definition. Bounds and patterns that the tokenizers refuse are
replaced by defaults. -/
def buildAnalyzer (definition : AnalyzerDef) : TextAnalyzer :=
  let build (tokenizer : Tokenizer) := buildWithFilters tokenizer (hasLowercase definition.filters)
    (hasAsciiFolding definition.filters) (stemmerLang definition.filters)
    (maxLength definition.filters)
  match definition.tokenizer with
  | .standard => build TextEngine.simple
  | .whitespace => build TextEngine.whitespace
  | .ngram min max =>
    if h : 0 < min.toNat ∧ min.toNat ≤ max.toNat then
      build (TextEngine.ngram min.toNat max.toNat h.1 h.2)
    else build (TextEngine.ngram 2 3 (by decide) (by decide))
  | .pattern regex =>
    match TextEngine.regex regex with
    | some pattern => build (regexTokenizer pattern)
    | none => build (regexTokenizer
        ((TextEngine.regex "[^\\w]+").get TextEngine.regex_default))

end Build

/-! ## What a definition declares -/

namespace FilterConfig

/-- The rewriting that a filter stands for. -/
def mapping : FilterConfig → Option Mapping
  | .lowercase => some .lowercase
  | .asciiFolding => some .asciiFolding
  | .stemmer lang =>
    some (match parseLanguage lang with
      | some known => .stemmer known
      | none => .unknownStemmer lang)
  | .stopwords _ | .length _ _ => none

def isLength : FilterConfig → Bool
  | .length _ _ => true
  | _ => false

/-- Whether a length is between the bounds of a length filter. -/
def accepts : FilterConfig → Nat → Bool
  | .length min max, n => decide (min.toNat ≤ n) && decide (n ≤ max.toNat)
  | _, _ => true

/-- What one declared filter does with the text of a token. -/
def declared (maps : TextMaps) (f : FilterConfig) (s : Bytes) : Option Bytes :=
  match f with
  | .stopwords lang => if maps.stopword lang s then none else some s
  | .length min max => if (length min max).accepts s.length then some s else none
  | f =>
    match f.mapping with
    | some m => some (maps.map m s)
    | none => some s

end FilterConfig

/-- The declared filters in the declared order. -/
def declaredText (maps : TextMaps) (filters : List FilterConfig) (s : Bytes) : Option Bytes :=
  filters.foldlM (fun s f => f.declared maps s) s

section Declared

variable [TextEngine]

/-- The declared tokenizer, if there is one with these bounds or this pattern. -/
def declaredTokenizer : TokenizerConfig → Option Tokenizer
  | .standard => some TextEngine.simple
  | .whitespace => some TextEngine.whitespace
  | .ngram min max =>
    if h : 0 < min.toNat ∧ min.toNat ≤ max.toNat then
      some (TextEngine.ngram min.toNat max.toNat h.1 h.2)
    else none
  | .pattern regex => (TextEngine.regex regex).map regexTokenizer

def declaredTokens (definition : AnalyzerDef) (maps : TextMaps) (text : Bytes) :
    Option (List Token) :=
  (declaredTokenizer definition.tokenizer).map fun tokenizer =>
    (tokenizer.tokens text).filterMap (·.onText (declaredText maps definition.filters))

/-- The analyzer does what its definition says, whatever the functions on texts are. -/
def Exact (definition : AnalyzerDef) : Prop :=
  ∀ maps text, declaredTokens definition maps text
    = some ((buildAnalyzer definition).analyze maps text)

end Declared

/-! ## The chain that is built -/

/-- The rewritings of the chain, in its order. -/
def chainMappings (filters : List FilterConfig) : List Mapping :=
  (if hasLowercase filters then [.lowercase] else []) ++
    (if hasAsciiFolding filters then [.asciiFolding] else []) ++
    ((stemmerLang filters).map .stemmer).toList

/-- A length is below the limit of the chain, if it has one. -/
def Keeps (limit : Option Nat) (n : Nat) : Prop := ∀ max ∈ limit, n < max

instance (limit : Option Nat) (n : Nat) : Decidable (Keeps limit n) :=
  inferInstanceAs (Decidable (∀ max ∈ limit, n < max))

def TextMaps.mapAll (maps : TextMaps) (ms : List Mapping) (s : Bytes) : Bytes :=
  ms.foldl (fun s m => maps.map m s) s

theorem buildWithFilters_text (tokenizer : Tokenizer) (filters : List FilterConfig)
    (maps : TextMaps) (s : Bytes) :
    (buildWithFilters tokenizer (hasLowercase filters) (hasAsciiFolding filters)
        (stemmerLang filters) (maxLength filters)).filterText maps s =
      if Keeps (maxLength filters) (maps.mapAll (chainMappings filters) s).length then
        some (maps.mapAll (chainMappings filters) s)
      else none := by
  unfold chainMappings
  cases hasLowercase filters <;> cases hasAsciiFolding filters <;>
    cases stemmerLang filters <;> cases maxLength filters <;>
    simp [buildWithFilters, TextAnalyzer.filterText, TextMaps.mapAll, Keeps, ChainFilter.run]

section Built

variable [TextEngine]

theorem buildAnalyzer_eq {definition : AnalyzerDef} {tokenizer : Tokenizer}
    (h : declaredTokenizer definition.tokenizer = some tokenizer) :
    buildAnalyzer definition = buildWithFilters tokenizer (hasLowercase definition.filters)
      (hasAsciiFolding definition.filters) (stemmerLang definition.filters)
      (maxLength definition.filters) := by
  unfold buildAnalyzer
  unfold declaredTokenizer at h
  cases htok : definition.tokenizer with
  | standard =>
    rw [htok] at h
    rw [← Option.some.inj h]
  | whitespace =>
    rw [htok] at h
    rw [← Option.some.inj h]
  | ngram min max =>
    rw [htok] at h
    simp only at h ⊢
    split at h
    · next hbounds =>
      rw [dif_pos hbounds, ← Option.some.inj h]
    · cases h
  | pattern regex =>
    rw [htok] at h
    simp only at h ⊢
    cases hregex : TextEngine.regex regex with
    | none =>
      rw [hregex] at h
      cases h
    | some pattern =>
      rw [hregex] at h
      simp only
      rw [← Option.some.inj h]

omit [TextEngine] in
theorem tokenizer_buildWithFilters (tokenizer : Tokenizer) (l a : Bool) (s : Option Language)
    (m : Option Nat) : (buildWithFilters tokenizer l a s m).tokenizer = tokenizer := by
  cases l <;> cases a <;> cases s <;> cases m <;> rfl

end Built

/-! ## Token by token -/

theorem offsets_onText {t t' : Token} {f : Bytes → Option Bytes} (h : t.onText f = some t') :
    t'.offsetFrom = t.offsetFrom ∧ t'.offsetTo = t.offsetTo := by
  obtain ⟨s, -, rfl⟩ := Option.map_eq_some_iff.mp h
  exact ⟨rfl, rfl⟩

/-- Tokens at different places tell two filters apart. -/
theorem filterMap_onText_iff {ts : List Token} {f g : Bytes → Option Bytes}
    (hnodup : (ts.map fun t => (t.offsetFrom, t.offsetTo)).Nodup) :
    ts.filterMap (·.onText f) = ts.filterMap (·.onText g) ↔ ∀ t ∈ ts, f t.text = g t.text := by
  -- what is kept of the later tokens stands elsewhere
  have hlater : ∀ {t t' : Token} {ts : List Token} {f g : Bytes → Option Bytes},
      (t.offsetFrom, t.offsetTo) ∉ ts.map (fun t => (t.offsetFrom, t.offsetTo)) →
      t.onText f = some t' → t' ∉ ts.filterMap (·.onText g) := by
    intro t t' ts f g hnot ht' hmem
    obtain ⟨u, hu, hu'⟩ := List.mem_filterMap.mp hmem
    have htt := offsets_onText ht'
    have hut := offsets_onText hu'
    exact hnot (List.mem_map.mpr ⟨u, hu, by rw [← hut.1, ← hut.2, htt.1, htt.2]⟩)
  induction ts with
  | nil => simp
  | cons t ts ih =>
    obtain ⟨hnot, hrest⟩ := List.nodup_cons.mp hnodup
    have htext : t.onText f = t.onText g ↔ f t.text = g t.text := by
      unfold Token.onText
      constructor
      · intro h
        cases hf : f t.text <;> cases hg : g t.text <;> simp [hf, hg] at h ⊢
        exact h
      · intro h
        rw [h]
    have hall : (∀ u ∈ t :: ts, f u.text = g u.text) ↔
        f t.text = g t.text ∧ ∀ u ∈ ts, f u.text = g u.text := List.forall_mem_cons
    have hih : ts.filterMap (·.onText f) = ts.filterMap (·.onText g) ↔
        ∀ u ∈ ts, f u.text = g u.text := ih hrest
    rw [hall, ← htext, ← hih]
    rw [List.filterMap_cons, List.filterMap_cons]
    cases hf : t.onText f with
    | none =>
      cases hg : t.onText g with
      | none => simp
      | some b =>
        constructor
        · intro h
          have hlist : ts.filterMap (·.onText f) = b :: ts.filterMap (·.onText g) := h
          exact absurd (hlist ▸ List.mem_cons_self) (hlater hnot hg)
        · rintro ⟨h, -⟩
          cases h
    | some a =>
      cases hg : t.onText g with
      | none =>
        constructor
        · intro h
          have hlist : a :: ts.filterMap (·.onText f) = ts.filterMap (·.onText g) := h
          exact absurd (hlist ▸ List.mem_cons_self) (hlater hnot hf)
        · rintro ⟨h, -⟩
          cases h
      | some b => simp

/-- The lengths of the tokens that a tokenizer ever finds. -/
def TokenText (tokenizer : Tokenizer) (s : Bytes) : Prop :=
  ∃ text, ∃ t ∈ tokenizer.tokens text, t.text = s

/-! ## Runs of the declared filters -/

/-- Every length filter of the list accepts. -/
def Accepts (filters : List FilterConfig) (n : Nat) : Prop := ∀ f ∈ filters, f.accepts n = true

instance (filters : List FilterConfig) (n : Nat) : Decidable (Accepts filters n) :=
  inferInstanceAs (Decidable (∀ f ∈ filters, f.accepts n = true))

section DeclaredText

variable (maps : TextMaps)

@[simp] theorem declaredText_nil (s : Bytes) : declaredText maps [] s = some s := rfl

theorem declaredText_cons (f : FilterConfig) (filters : List FilterConfig) (s : Bytes) :
    declaredText maps (f :: filters) s = (f.declared maps s).bind (declaredText maps filters) :=
  rfl

theorem declaredText_append (front rear : List FilterConfig) (s : Bytes) :
    declaredText maps (front ++ rear) s
      = (declaredText maps front s).bind (declaredText maps rear) := by
  induction front generalizing s with
  | nil => rfl
  | cons f front ih =>
    rw [List.cons_append, declaredText_cons, declaredText_cons, Option.bind_assoc]
    exact congrArg _ (funext fun s' => ih s')

theorem declared_mapping {f : FilterConfig} {m : Mapping} (h : f.mapping = some m) (s : Bytes) :
    f.declared maps s = some (maps.map m s) := by
  cases f <;> simp_all [FilterConfig.mapping, FilterConfig.declared]

theorem declared_isLength {f : FilterConfig} (h : f.isLength = true) (s : Bytes) :
    f.declared maps s = if f.accepts s.length then some s else none := by
  cases f <;> simp_all [FilterConfig.isLength, FilterConfig.declared]

theorem declaredText_lengths {filters : List FilterConfig} (h : ∀ f ∈ filters, f.isLength = true)
    (s : Bytes) :
    declaredText maps filters s = if Accepts filters s.length then some s else none := by
  induction filters with
  | nil => exact (if_pos (fun f hf => nomatch hf)).symm
  | cons f filters ih =>
    have hf : f.isLength = true := h f List.mem_cons_self
    have hrest := ih fun g hg => h g (List.mem_cons_of_mem f hg)
    have hall : Accepts (f :: filters) s.length ↔
        f.accepts s.length = true ∧ Accepts filters s.length := List.forall_mem_cons
    rw [declaredText_cons, declared_isLength maps hf]
    by_cases hacc : f.accepts s.length = true
    · simp [hacc, hrest, hall]
    · simp [hacc, hall]

theorem declaredText_mappings {filters : List FilterConfig} {ms : List Mapping}
    (h : filters.map FilterConfig.mapping = ms.map some) (s : Bytes) :
    declaredText maps filters s = some (maps.mapAll ms s) := by
  induction filters generalizing ms s with
  | nil =>
    have hnil : ms = [] := List.map_eq_nil_iff.mp h.symm
    rw [hnil]
    rfl
  | cons f filters ih =>
    cases ms with
    | nil => cases h
    | cons m ms =>
      have hcons := List.cons.inj h
      rw [declaredText_cons, declared_mapping maps hcons.1]
      exact ih hcons.2 _

end DeclaredText

/-! ## When the chain is the declared one -/

section Conditions

variable (tokenizer : Tokenizer) (filters : List FilterConfig)

/-- There are length filters only, and on the tokens they amount to the limit. -/
def OnlyLengths : Prop :=
  (∀ f ∈ filters, f.isLength = true) ∧
    ∀ s, TokenText tokenizer s → (Accepts filters s.length ↔ Keeps (maxLength filters) s.length)

/-- The rewriting filters stand together and are those of the chain, in its order. The length
filters in front of them accept every token, those behind them amount to the limit. -/
structure InOrder (front middle rear : List FilterConfig) : Prop where
  eq : filters = front ++ middle ++ rear
  nonempty : middle ≠ []
  mappings : middle.map FilterConfig.mapping = (chainMappings filters).map some
  front_length : ∀ f ∈ front, f.isLength = true
  rear_length : ∀ f ∈ rear, f.isLength = true
  front_accepts : ∀ s, TokenText tokenizer s → Accepts front s.length
  rear_accepts : ∀ n, Accepts rear n ↔ Keeps (maxLength filters) n

/-- The limit keeps no token, and neither do the declared filters, whatever the functions on
texts are. -/
def Silent : Prop :=
  (maxLength filters = some 0 ∨
    chainMappings filters = [] ∧
      ∀ s, TokenText tokenizer s → ¬ Keeps (maxLength filters) s.length) ∧
    ∀ maps s, TokenText tokenizer s → declaredText maps filters s = none

/-- The declared filters amount to the chain built for them, on the tokens of a tokenizer. -/
def Faithful : Prop :=
  (∀ s, ¬ TokenText tokenizer s) ∨ Silent tokenizer filters ∨ OnlyLengths tokenizer filters ∨
    ∃ front middle rear, InOrder tokenizer filters front middle rear

/-- The text of a token after the chain that is built. -/
def chainText (maps : TextMaps) (s : Bytes) : Option Bytes :=
  if Keeps (maxLength filters) (maps.mapAll (chainMappings filters) s).length then
    some (maps.mapAll (chainMappings filters) s)
  else none

end Conditions

section Sufficient

variable {tokenizer : Tokenizer} {filters : List FilterConfig} (maps : TextMaps)

theorem OnlyLengths.chainMappings_eq (h : ∀ f ∈ filters, f.isLength = true) :
    chainMappings filters = [] := by
  have hl : hasLowercase filters = false := List.any_eq_false.mpr fun f hf => by
    have := h f hf
    cases f <;> simp_all [FilterConfig.isLength]
  have ha : hasAsciiFolding filters = false := List.any_eq_false.mpr fun f hf => by
    have := h f hf
    cases f <;> simp_all [FilterConfig.isLength]
  have hs : stemmerLang filters = none := List.findSome?_eq_none_iff.mpr fun f hf => by
    have := h f hf
    cases f <;> simp_all [FilterConfig.isLength]
  rw [chainMappings, hl, ha, hs]
  rfl

theorem OnlyLengths.text (h : OnlyLengths tokenizer filters) {s : Bytes}
    (hs : TokenText tokenizer s) : declaredText maps filters s = chainText filters maps s := by
  rw [declaredText_lengths maps h.1, chainText, OnlyLengths.chainMappings_eq h.1]
  show (if Accepts filters s.length then some s else none)
    = if Keeps (maxLength filters) s.length then some s else none
  simp only [h.2 s hs]

theorem InOrder.text {front middle rear : List FilterConfig}
    (h : InOrder tokenizer filters front middle rear) {s : Bytes} (hs : TokenText tokenizer s) :
    declaredText maps filters s = chainText filters maps s := by
  have hdeclared : declaredText maps filters s
      = (declaredText maps middle s).bind (declaredText maps rear) := by
    conv_lhs => rw [h.eq]
    rw [declaredText_append, declaredText_append, declaredText_lengths maps h.front_length,
      if_pos (h.front_accepts s hs)]
    rfl
  rw [hdeclared, declaredText_mappings maps h.mappings, Option.bind_some,
    declaredText_lengths maps h.rear_length, chainText]
  simp only [h.rear_accepts]

theorem Silent.text (h : Silent tokenizer filters) {s : Bytes} (hs : TokenText tokenizer s) :
    declaredText maps filters s = chainText filters maps s := by
  rw [h.2 maps s hs, chainText, if_neg]
  rcases h.1 with hzero | ⟨hnil, hlong⟩
  · intro hkeeps
    exact absurd (hkeeps 0 hzero) (by omega)
  · rw [hnil]
    exact hlong s hs

theorem Faithful.text (h : Faithful tokenizer filters) {s : Bytes} (hs : TokenText tokenizer s) :
    declaredText maps filters s = chainText filters maps s := by
  rcases h with hnone | hsilent | honly | ⟨front, middle, rear, horder⟩
  · exact absurd hs (hnone s)
  · exact hsilent.text maps hs
  · exact honly.text maps hs
  · exact horder.text maps hs

end Sufficient

/-! ## Scripted functions on texts

To find out what the filters of a definition are, run them on functions that lead a token through
a fixed list of texts as long as the expected rewritings come, and to a text of no return
otherwise. The texts in between are longer than any length filter accepts. -/

namespace Script

variable (ms : List Mapping) (start : Bytes)

/-- The text after some of the rewritings: the start, long ones, and in the end an empty one. -/
def stage (i : Nat) : Bytes :=
  if i = 0 then start
  else if i < ms.length then List.replicate (300 + start.length + i) 0
  else []

/-- The text of no return. -/
def lost : Bytes := List.replicate (300 + start.length + ms.length) 0

def maps : TextMaps where
  map m s :=
    match (List.range ms.length).find? fun i => s = stage ms start i ∧ ms[i]? = some m with
    | some i => stage ms start (i + 1)
    | none => lost ms start
  stopword _ _ := true

variable {ms start}

theorem length_stage {i : Nat} (h : i < ms.length) :
    (stage ms start i).length = if i = 0 then start.length else 300 + start.length + i := by
  unfold stage
  by_cases hi : i = 0
  · rw [if_pos hi, if_pos hi]
  · rw [if_neg hi, if_neg hi, if_pos h, List.length_replicate]

theorem stage_inj {i j : Nat} (hi : i < ms.length) (hj : j < ms.length)
    (h : stage ms start i = stage ms start j) : i = j := by
  have hlen := congrArg List.length h
  rw [length_stage hi, length_stage hj] at hlen
  split at hlen <;> split at hlen <;> omega

theorem stage_end (hms : ms ≠ []) : stage ms start ms.length = [] := by
  have hpos : ms.length ≠ 0 := fun h => hms (List.length_eq_zero_iff.mp h)
  rw [stage, if_neg hpos, if_neg (Nat.lt_irrefl _)]

/-- The expected rewriting leads on. -/
theorem map_expected {i : Nat} (hi : i < ms.length) :
    (maps ms start).map (ms[i]) (stage ms start i) = stage ms start (i + 1) := by
  show (match (List.range ms.length).find? fun j =>
      stage ms start i = stage ms start j ∧ ms[j]? = some ms[i] with
    | some j => stage ms start (j + 1)
    | none => lost ms start) = _
  cases hfind : (List.range ms.length).find? fun j =>
      stage ms start i = stage ms start j ∧ ms[j]? = some ms[i] with
  | none =>
    have := List.find?_eq_none.mp hfind i (List.mem_range.mpr hi)
    simp [hi] at this
  | some j =>
    have hj : j < ms.length := List.mem_range.mp (List.mem_of_find?_eq_some hfind)
    have hsame := List.find?_some hfind
    rw [decide_eq_true_eq] at hsame
    rw [stage_inj hi hj hsame.1]

/-- Any other rewriting leads to the text of no return. -/
theorem map_unexpected {m : Mapping} {s : Bytes}
    (h : ∀ i < ms.length, s = stage ms start i → ms[i]? ≠ some m) :
    (maps ms start).map m s = lost ms start := by
  show (match (List.range ms.length).find? fun j => s = stage ms start j ∧ ms[j]? = some m with
    | some j => stage ms start (j + 1)
    | none => lost ms start) = _
  cases hfind : (List.range ms.length).find? fun j => s = stage ms start j ∧ ms[j]? = some m with
  | none => rfl
  | some j =>
    have hj : j < ms.length := List.mem_range.mp (List.mem_of_find?_eq_some hfind)
    have hsame := List.find?_some hfind
    rw [decide_eq_true_eq] at hsame
    exact absurd hsame.2 (h j hj hsame.1)

theorem lost_ne_nil : lost ms start ≠ [] := by
  intro h
  have := congrArg List.length h
  rw [lost, List.length_replicate, List.length_nil] at this
  omega

theorem map_lost (m : Mapping) : (maps ms start).map m (lost ms start) = lost ms start := by
  refine map_unexpected fun i hi h => ?_
  have hlen := congrArg List.length h
  rw [length_stage hi, lost, List.length_replicate] at hlen
  split at hlen <;> omega

theorem map_nil (hstart : start ≠ []) (m : Mapping) :
    (maps ms start).map m [] = lost ms start := by
  refine map_unexpected fun i hi h => ?_
  have hpos : start.length ≠ 0 := fun hzero => hstart (List.length_eq_zero_iff.mp hzero)
  have hlen := congrArg List.length h
  rw [length_stage hi, List.length_nil] at hlen
  split at hlen <;> omega

/-- What a filter can do to a text under the script. -/
theorem declared_cases (f : FilterConfig) (s : Bytes) :
    f.declared (maps ms start) s = none ∨
      (f.isLength = true ∧ f.accepts s.length = true ∧ f.declared (maps ms start) s = some s) ∨
      ∃ m, f.mapping = some m ∧
        f.declared (maps ms start) s = some ((maps ms start).map m s) := by
  cases hm : f.mapping with
  | some m => exact Or.inr (Or.inr ⟨m, rfl, declared_mapping _ hm s⟩)
  | none =>
    cases f with
    | stopwords lang => exact Or.inl rfl
    | length min max =>
      rw [declared_isLength _ rfl]
      by_cases hacc : (FilterConfig.length min max).accepts s.length = true
      · exact Or.inr (Or.inl ⟨rfl, hacc, if_pos hacc⟩)
      · exact Or.inl (if_neg hacc)
    | lowercase => cases hm
    | asciiFolding => cases hm
    | stemmer lang => cases hm

/-- The text of no return is left through no filter. -/
theorem declaredText_lost (filters : List FilterConfig) {s : Bytes}
    (h : declaredText (maps ms start) filters (lost ms start) = some s) : s = lost ms start := by
  induction filters with
  | nil => exact (Option.some.inj h).symm
  | cons f filters ih =>
    rw [declaredText_cons] at h
    rcases declared_cases f (lost ms start) with hf | ⟨-, -, hf⟩ | ⟨m, -, hf⟩
    · rw [hf] at h
      cases h
    · rw [hf] at h
      exact ih h
    · rw [hf, map_lost] at h
      exact ih h

/-- Where every rewriting would be lost, only length filters leave a text alone. -/
theorem lengths_of_unchanged {s : Bytes} (hlost : ∀ m, (maps ms start).map m s = lost ms start)
    (hne : s ≠ lost ms start) {filters : List FilterConfig}
    (h : declaredText (maps ms start) filters s = some s) :
    ∀ f ∈ filters, f.isLength = true := by
  induction filters with
  | nil => exact nofun
  | cons f filters ih =>
    rw [declaredText_cons] at h
    rcases @declared_cases ms start f s with hf | ⟨hlength, -, hf⟩ | ⟨m, -, hf⟩
    · rw [hf] at h
      cases h
    · rw [hf] at h
      exact List.forall_mem_cons.mpr ⟨hlength, ih h⟩
    · rw [hf, hlost m] at h
      exact absurd (declaredText_lost filters h) hne

/-- No length filter accepts the texts between the ends. -/
theorem accepts_long {f : FilterConfig} (hf : f.isLength = true) {n : Nat} (hn : 300 ≤ n) :
    f.accepts n = false := by
  cases f with
  | length min max =>
    have hmax := max.toNat_lt
    show (decide (min.toNat ≤ n) && decide (n ≤ max.toNat)) = false
    rw [decide_eq_false (by omega : ¬ n ≤ max.toNat), Bool.and_false]
  | _ => cases hf

theorem rewriting_next {f : FilterConfig} {m : Mapping} {filters : List FilterConfig} {i : Nat}
    (hi : i < ms.length) (hm : f.mapping = some m)
    (h : declaredText (maps ms start) (f :: filters) (stage ms start i) = some []) :
    m = ms[i] ∧ declaredText (maps ms start) filters (stage ms start (i + 1)) = some [] := by
  rw [declaredText_cons, declared_mapping _ hm, Option.bind_some] at h
  by_cases hmi : m = ms[i]
  · rw [hmi, map_expected hi] at h
    exact ⟨hmi, h⟩
  · rw [map_unexpected] at h
    · exact absurd (declaredText_lost filters h).symm lost_ne_nil
    · intro j hj hsame hmj
      obtain rfl := stage_inj hi hj hsame
      rw [List.getElem?_eq_getElem hi] at hmj
      exact hmi (Option.some.inj hmj).symm

/-- From within the script, the expected rewritings come first and length filters follow. -/
theorem split_of_stage (hstart : start ≠ []) {filters : List FilterConfig} {i : Nat} (hpos : 0 < i)
    (hi : i ≤ ms.length)
    (h : declaredText (maps ms start) filters (stage ms start i) = some []) :
    ∃ middle rear, filters = middle ++ rear ∧ (∀ f ∈ rear, f.isLength = true) ∧
      middle.map FilterConfig.mapping = (ms.drop i).map some := by
  induction filters generalizing i with
  | nil =>
    refine ⟨[], [], rfl, nofun, ?_⟩
    have hend : ¬ i < ms.length := by
      intro hlt
      have hlen := congrArg List.length (Option.some.inj h)
      rw [length_stage hlt, if_neg (by omega), List.length_nil] at hlen
      omega
    rw [List.drop_eq_nil_of_le (by omega)]
    rfl
  | cons f filters ih =>
    by_cases hlt : i < ms.length
    · have hrun := h
      rw [declaredText_cons] at hrun
      have hlen : 300 ≤ (stage ms start i).length := by
        rw [length_stage hlt, if_neg (by omega)]
        omega
      rcases declared_cases f (stage ms start i) with hf | ⟨hlength, hacc, -⟩ | ⟨m, hm, -⟩
      · rw [hf] at hrun
        cases hrun
      · rw [accepts_long hlength hlen] at hacc
        cases hacc
      · obtain ⟨rfl, hnext⟩ := rewriting_next hlt hm h
        obtain ⟨middle, rear, rfl, hrear, hmiddle⟩ := ih (Nat.succ_pos i) hlt hnext
        refine ⟨f :: middle, rear, rfl, hrear, ?_⟩
        rw [List.map_cons, hm, hmiddle, List.drop_eq_getElem_cons hlt, List.map_cons]
    · -- the script is over
      have hend : i = ms.length := by omega
      have hms : ms ≠ [] := fun hnil => by
        rw [hnil, List.length_nil] at hi
        omega
      rw [hend, stage_end hms] at h
      refine ⟨[], f :: filters, rfl, lengths_of_unchanged (map_nil hstart) lost_ne_nil.symm h, ?_⟩
      rw [hend, List.drop_length]
      rfl

/-- From the start of the script, length filters may come first. -/
theorem split_of_start (hstart : start ≠ []) (hms : ms ≠ []) {filters : List FilterConfig}
    (h : declaredText (maps ms start) filters start = some []) :
    ∃ front middle rear, filters = front ++ middle ++ rear ∧ (∀ f ∈ front, f.isLength = true) ∧
      (∀ f ∈ rear, f.isLength = true) ∧
      middle.map FilterConfig.mapping = ms.map some := by
  have hlt : 0 < ms.length := List.length_pos_iff.mpr hms
  induction filters with
  | nil => exact absurd (Option.some.inj h) hstart
  | cons f filters ih =>
    have hrun := h
    rw [declaredText_cons] at hrun
    rcases @declared_cases ms start f start with hf | ⟨hlength, -, hf⟩ | ⟨m, hm, -⟩
    · rw [hf] at hrun
      cases hrun
    · rw [hf] at hrun
      obtain ⟨front, middle, rear, rfl, hfront, hrest⟩ := ih hrun
      exact ⟨f :: front, middle, rear, rfl, List.forall_mem_cons.mpr ⟨hlength, hfront⟩, hrest⟩
    · obtain ⟨rfl, hnext⟩ := rewriting_next hlt hm h
      obtain ⟨middle, rear, rfl, hrear, hmiddle⟩ :=
        split_of_stage hstart (Nat.succ_pos 0) hlt hnext
      refine ⟨[], f :: middle, rear, rfl, nofun, hrear, ?_⟩
      rw [List.map_cons, hm, hmiddle, ← List.map_cons (f := some),
        ← List.drop_eq_getElem_cons hlt, List.drop_zero]

/-- The script runs to its end in the chain. -/
theorem mapAll_drop {i : Nat} (hi : i ≤ ms.length) :
    (maps ms start).mapAll (ms.drop i) (stage ms start i) = stage ms start ms.length := by
  induction hn : ms.length - i generalizing i with
  | zero =>
    have hend : i = ms.length := by omega
    rw [hend, List.drop_length]
    rfl
  | succ n ih =>
    have hlt : i < ms.length := by omega
    rw [List.drop_eq_getElem_cons hlt, TextMaps.mapAll, List.foldl_cons, map_expected hlt]
    exact ih hlt (by omega)

end Script

/-! ## The condition is necessary -/

namespace Necessary

variable {tokenizer : Tokenizer} {filters : List FilterConfig}

/-- Every rewriting gives one text. -/
def constant (out : Bytes) : TextMaps := ⟨fun _ _ => out, fun _ _ => true⟩

theorem mapAll_constant (out : Bytes) {ms : List Mapping} (h : ms ≠ []) (s : Bytes) :
    (constant out).mapAll ms s = out := by
  cases ms with
  | nil => exact absurd rfl h
  | cons m ms =>
    show ms.foldl (fun _ _ => out) out = out
    clear h
    induction ms with
    | nil => rfl
    | cons m ms ih => exact ih

theorem inOrder_of_text {s : Bytes} (hs : TokenText tokenizer s)
    (hms : chainMappings filters ≠ []) (hzero : Keeps (maxLength filters) 0)
    (h : ∀ maps s, TokenText tokenizer s →
      declaredText maps filters s = chainText filters maps s) :
    ∃ front middle rear, InOrder tokenizer filters front middle rear := by
  have hstart : s ≠ [] := by
    obtain ⟨text, t, ht, rfl⟩ := hs
    exact tokenizer.nonempty text t ht
  -- the scripted run of the chain ends with the empty text
  have hscript : declaredText (Script.maps (chainMappings filters) s) filters s = some [] := by
    have hmap : (Script.maps (chainMappings filters) s).mapAll (chainMappings filters) s = [] := by
      have := @Script.mapAll_drop (chainMappings filters) s 0 (Nat.zero_le _)
      rw [List.drop_zero, Script.stage_end hms] at this
      exact this
    rw [h _ s hs, chainText, hmap]
    exact if_pos hzero
  obtain ⟨front, middle, rear, heq, hfront, hrear, hmiddle⟩ :=
    Script.split_of_start hstart hms hscript
  have hnonempty : middle ≠ [] := by
    intro hnil
    rw [hnil] at hmiddle
    exact hms (List.map_eq_nil_iff.mp hmiddle.symm)
  -- constant functions show the length filters on both sides
  have hconstant : ∀ s (out : Bytes), TokenText tokenizer s →
      (if Accepts front s.length then
          (if Accepts rear out.length then some out else none) else none)
        = if Keeps (maxLength filters) out.length then some out else none := by
    intro s out hs
    have hchain := h (constant out) s hs
    rw [chainText, mapAll_constant out hms] at hchain
    rw [← hchain]
    conv_rhs => rw [heq]
    rw [declaredText_append, declaredText_append, declaredText_lengths _ hfront]
    split
    · rw [Option.bind_some, declaredText_mappings _ hmiddle, mapAll_constant out hms,
        Option.bind_some, declaredText_lengths _ hrear]
    · rfl
  have hfrontAll : ∀ s, TokenText tokenizer s → Accepts front s.length := by
    intro s hs
    by_contra hno
    have := hconstant s [] hs
    rw [if_neg hno, List.length_nil, if_pos hzero] at this
    cases this
  refine ⟨front, middle, rear, heq, hnonempty, hmiddle, hfront, hrear, hfrontAll, fun n => ?_⟩
  have hn := hconstant s (List.replicate n 0) hs
  rw [if_pos (hfrontAll s hs), List.length_replicate] at hn
  by_cases hacc : Accepts rear n <;> by_cases hkeeps : Keeps (maxLength filters) n <;>
    simp_all

/-- Without rewritings in the chain, a filter that is no length filter must never be reached by a
token that the chain keeps. -/
theorem silent_or_onlyLengths (hms : chainMappings filters = [])
    (h : ∀ maps s, TokenText tokenizer s →
      declaredText maps filters s = chainText filters maps s) :
    Silent tokenizer filters ∨ OnlyLengths tokenizer filters := by
  have hchain : ∀ maps s, chainText filters maps s
      = if Keeps (maxLength filters) s.length then some s else none := by
    intro maps s
    rw [chainText, hms]
    rfl
  by_cases hall : ∀ f ∈ filters, f.isLength = true
  · refine Or.inr ⟨hall, fun s hs => ?_⟩
    have := h (constant []) s hs
    rw [declaredText_lengths _ hall, hchain] at this
    by_cases hacc : Accepts filters s.length <;>
      by_cases hkeeps : Keeps (maxLength filters) s.length <;> simp_all
  · -- a text that differs from the token comes out, or nothing
    have hnot : ∀ s, TokenText tokenizer s → ¬ Keeps (maxLength filters) s.length := by
      intro s hs hkeeps
      have hrun := h (Script.maps [] s) s hs
      rw [hchain, if_pos hkeeps] at hrun
      refine hall (Script.lengths_of_unchanged (fun m => ?_) ?_ hrun)
      · exact Script.map_unexpected fun i hi => absurd hi (Nat.not_lt_zero i)
      · intro heq
        have hlen := congrArg List.length heq
        rw [Script.lost, List.length_replicate] at hlen
        omega
    refine Or.inl ⟨Or.inr ⟨hms, hnot⟩, fun maps s hs => ?_⟩
    rw [h maps s hs, hchain, if_neg (hnot s hs)]

theorem faithful_of_text
    (h : ∀ maps s, TokenText tokenizer s →
      declaredText maps filters s = chainText filters maps s) :
    Faithful tokenizer filters := by
  by_cases hnone : ∀ s, ¬ TokenText tokenizer s
  · exact Or.inl hnone
  · obtain ⟨s, hs⟩ := not_forall_not.mp hnone
    by_cases hms : chainMappings filters = []
    · exact Or.inr ((silent_or_onlyLengths hms h).imp id Or.inl)
    · by_cases hzero : Keeps (maxLength filters) 0
      · exact Or.inr (Or.inr (Or.inr (inOrder_of_text hs hms hzero h)))
      · have hlimit : maxLength filters = some 0 := by
          cases hmax : maxLength filters with
          | none => exact absurd (fun max hm => by rw [hmax] at hm; cases hm) hzero
          | some max =>
            rw [hmax] at hzero
            have : ¬ 0 < max := fun hpos => hzero fun m hm => Option.some.inj hm ▸ hpos
            rw [Nat.eq_zero_of_not_pos this]
        refine Or.inr (Or.inl ⟨Or.inl hlimit, fun maps s hs => ?_⟩)
        rw [h maps s hs, chainText, if_neg]
        intro hkeeps
        exact absurd (hkeeps 0 hlimit) (by omega)

end Necessary

section Exact

variable [TextEngine]

/-- Whether the analyzer is exact is seen on the text of each token. -/
theorem exact_iff_tokens (definition : AnalyzerDef) :
    Exact definition ↔ ∃ tokenizer, declaredTokenizer definition.tokenizer = some tokenizer ∧
      ∀ maps s, TokenText tokenizer s →
        declaredText maps definition.filters s = chainText definition.filters maps s := by
  cases htok : declaredTokenizer definition.tokenizer with
  | none =>
    constructor
    · intro h
      have := h ⟨fun _ s => s, fun _ _ => false⟩ []
      rw [declaredTokens, htok] at this
      cases this
    · rintro ⟨_, h, -⟩
      cases h
  | some tokenizer =>
    have hiff : ∀ maps text, declaredTokens definition maps text
        = some ((buildAnalyzer definition).analyze maps text) ↔
        ∀ t ∈ tokenizer.tokens text, declaredText maps definition.filters t.text
          = chainText definition.filters maps t.text := by
      intro maps text
      rw [declaredTokens, htok, Option.map_some, Option.some.injEq, buildAnalyzer_eq htok,
        TextAnalyzer.analyze, tokenizer_buildWithFilters,
        filterMap_onText_iff (tokenizer.distinct text)]
      simp only [buildWithFilters_text, chainText]
    constructor
    · intro h
      refine ⟨tokenizer, rfl, fun maps s hs => ?_⟩
      obtain ⟨text, t, ht, rfl⟩ := hs
      exact (hiff maps text).mp (h maps text) t ht
    · rintro ⟨tokenizer', htok', h⟩ maps text
      obtain rfl := Option.some.inj htok'
      exact (hiff maps text).mpr fun t ht => h maps t.text ⟨text, t, ht, rfl⟩

theorem exact_iff_faithful (definition : AnalyzerDef) :
    Exact definition ↔ ∃ tokenizer, declaredTokenizer definition.tokenizer = some tokenizer ∧
      Faithful tokenizer definition.filters := by
  rw [exact_iff_tokens]
  constructor
  · rintro ⟨tokenizer, htok, h⟩
    exact ⟨tokenizer, htok, Necessary.faithful_of_text h⟩
  · rintro ⟨tokenizer, htok, h⟩
    exact ⟨tokenizer, htok, fun maps s hs => h.text maps hs⟩

-- in the order of the chain, and without length filters, everything is built
example : Exact ⟨"prose", .standard, [.lowercase, .asciiFolding, .stemmer "english"]⟩ := by
  refine (exact_iff_faithful _).mpr ⟨TextEngine.simple, rfl, Or.inr (Or.inr (Or.inr ?_))⟩
  refine ⟨[], [.lowercase, .asciiFolding, .stemmer "english"], [], rfl, by decide,
    by decide +kernel, nofun, nofun, fun _ _ => nofun, fun n => ?_⟩
  exact ⟨fun _ => nofun, fun _ => nofun⟩

end Exact

/-! ## The pattern tokenizer -/

/-- The tokens are the maximal pieces of a text that no match covers, in order and with their
offsets. -/
structure SplitsAtMatches (pattern : Regex) (text : Bytes) (tokens : List Token) : Prop where
  pieces : ∀ piece, piece ∈ tokens.map (fun t => (t.offsetFrom, t.offsetTo)) ↔
    Gaps.Maximal 0 text.length (pattern.findIter text) piece
  ordered : tokens.Pairwise fun t u => t.offsetTo ≤ u.offsetFrom
  slices : ∀ t ∈ tokens, t.text = (text.take t.offsetTo).drop t.offsetFrom
  positions : tokens.map Token.position = List.range tokens.length

theorem splitsAtMatches_regexTokenizer (pattern : Regex) (text : Bytes) :
    SplitsAtMatches pattern text ((regexTokenizer pattern).tokens text) := by
  show SplitsAtMatches pattern text (RegexTokenizer.tokens pattern text)
  refine ⟨fun piece => ?_, ?_, fun t ht => ?_, ?_⟩
  · rw [RegexTokenizer.map_offsets]
    exact Gaps.mem_gaps_iff (pattern.spans text) piece
  · have hordered := Gaps.pairwise_gaps (pattern.spans text)
    rw [show Gaps.gaps 0 text.length (pattern.findIter text)
      = (RegexTokenizer.tokens pattern text).map (fun t => (t.offsetFrom, t.offsetTo)) from
        (RegexTokenizer.map_offsets pattern text).symm, List.pairwise_map] at hordered
    exact hordered
  · obtain ⟨split, -, rfl⟩ := List.mem_map.mp ht
    rfl
  · rw [RegexTokenizer.tokens, List.map_map, List.length_map, List.length_zipIdx]
    show (RegexTokenizer.splits pattern text).zipIdx.map Prod.snd = _
    rw [List.zipIdx_map_snd, List.range_eq_range']

/-- Pattern tokenizers split as they should, and an analyzer does what its definition says if and
only if its tokenizer exists and its filters amount to the chain built for them. -/
theorem analyzer_exact_iff [TextEngine] :
    (∀ pattern text,
      SplitsAtMatches pattern text ((regexTokenizer pattern).tokens text)) ∧
    ∀ definition, Exact definition ↔
      ∃ tokenizer, declaredTokenizer definition.tokenizer = some tokenizer ∧
        Faithful tokenizer definition.filters :=
  ⟨splitsAtMatches_regexTokenizer, exact_iff_faithful⟩

/-! ## A lower bound that is never checked -/

namespace Rhymes

/-- The spaces of a text that starts at an offset. -/
def spaces (lo : Nat) : Bytes → List (Nat × Nat)
  | [] => []
  | b :: text => if b = 32 then (lo, lo + 1) :: spaces (lo + 1) text else spaces (lo + 1) text

theorem spans_spaces (text : Bytes) {lo start : Nat} (h : start ≤ lo) :
    Gaps.Spans start (lo + text.length) (spaces lo text) := by
  induction text generalizing lo start with
  | nil => exact h
  | cons b text ih =>
    have hlen : lo + (b :: text).length = lo + 1 + text.length := by
      rw [List.length_cons]
      omega
    rw [hlen]
    unfold spaces
    split
    · exact ⟨h, Nat.le_succ lo, ih le_rfl⟩
    · exact ih (by omega)

/-- A pattern that matches each space. -/
def space : Regex where
  findIter := spaces 0
  spans text := by
    have := spans_spaces text (Nat.le_refl 0)
    rwa [Nat.zero_add] at this

/-- Words are what stands between spaces. -/
local instance engine : TextEngine where
  simple := regexTokenizer space
  whitespace := regexTokenizer space
  ngram _ _ _ _ := regexTokenizer space
  regex p := if p = "[^\\w]+" then some space else none
  regex_default := rfl

def short : AnalyzerDef := ⟨"short", .standard, [.length 3 20]⟩

/-- The words of `go west` with three to twenty letters: the short one stays as well. -/
theorem short_not_exact : ¬ Exact short := by
  intro h
  have := h ⟨fun _ s => s, fun _ _ => false⟩ [103, 111, 32, 119, 101, 115, 116]
  exact absurd (congrArg (Option.map (List.map Token.text)) this) (by decide +kernel)

end Rhymes

end Analyzers

end StellarDb
