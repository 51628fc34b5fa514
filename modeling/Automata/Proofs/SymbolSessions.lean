import Automata.Proofs.Interning
import Mathlib.Data.List.Induction

/-!
# What a symbol table promises to those who ask it

Symbols are compared by their numbers and kinds, never by their names.  That this is as good as
comparing names is a promise about the whole history of a table: whatever was asked of it before,
in any order, and whether it could be answered or not.  The promise is kept because a table only
grows, at its end, and only by what it does not have yet.

## What is here

* `Request` and `Request.serve` — the questions to a table, with their answers.
* `Session`, `Session.ask` — a table together with everything it has answered, and one more
  question; `Session.of` — a session from an empty table on.
* `created` — the kinds and names that symbols are created for, and `Session.entries_of` — **a table
  holds them in the order in which they were first asked for.**
* `Session.Sound` — what holds of a session at any time: answers are entries, and stay so.
* `Session.Faithful` and `symbols_stand_for_names` — **the promise**: symbols are equal exactly if
  kind and name are, they keep their names, and a question that fails changes nothing.
-/

set_option autoImplicit false

namespace Automata

/-! ## Lists without their repetitions -/

section EraseDups

variable {α β : Type} [BEq α] [LawfulBEq α] [BEq β] [LawfulBEq β]

theorem eraseDups_concat (l : List α) (a : α) :
    (l ++ [a]).eraseDups = if a ∈ l then l.eraseDups else l.eraseDups ++ [a] := by
  rw [List.eraseDups_append]
  by_cases h : a ∈ l
  · simp [List.removeAll, h]
  · simp [List.removeAll, h, List.eraseDups_cons]

/-- Things that a partial map keeps apart may be mapped before or after the repetitions go. -/
theorem filterMap_eraseDups {f : α → Option β}
    (hf : ∀ a a' b, f a = some b → f a' = some b → a = a') (l : List α) :
    l.eraseDups.filterMap f = (l.filterMap f).eraseDups := by
  induction l using List.reverseRecOn with
  | nil => rfl
  | append_singleton l a ih =>
    cases hfa : f a with
    | none =>
      rw [eraseDups_concat]
      split <;> simp [List.filterMap_append, hfa, ih]
    | some b =>
      have hmem : b ∈ l.filterMap f ↔ a ∈ l := by
        rw [List.mem_filterMap]
        refine ⟨fun ⟨a', ha', hb⟩ => ?_, fun ha => ⟨a, ha, hfa⟩⟩
        exact hf a' a b hb hfa ▸ ha'
      simp only [List.filterMap_append, List.filterMap_cons, List.filterMap_nil, hfa,
        eraseDups_concat, hmem]
      split <;> simp [List.filterMap_append, hfa, ih]

end EraseDups

/-! ## Finding a symbol -/

namespace SymbolTable

variable {t : SymbolTable} {s : Symbol} {kind : SymbolKind} {name : String}

theorem find?_eq_none_iff : t.find? kind name = none ↔ (kind, name) ∉ t.entries := by
  rw [find?, Option.map_eq_none_iff, List.idxOf?_eq_none_iff]

/-- The symbol of an entry is found under its kind and name. -/
theorem find?_eq_some_iff (ht : t.entries.Nodup) :
    t.find? kind name = some s ↔ s.kind = kind ∧ t.entries[s.number]? = some (kind, name) := by
  refine ⟨getElem?_of_find?, fun ⟨hkind, hentry⟩ => ?_⟩
  rw [find?, (idxOf?_eq_some_iff_getElem? ht).2 hentry, ← hkind]
  rfl

/-- A terminal is found by its name. -/
theorem lookup_of_terminal (hname : name ≠ "") (h : t.find? .terminal name = some s) :
    t.lookup name = .ok s := by
  simp [lookup, hname, h]

/-- A nonterminal is found by its name if there is no terminal of that name. -/
theorem lookup_of_nonterminal (hname : name ≠ "") (hterminal : t.find? .terminal name = none)
    (h : t.find? .nonterminal name = some s) : t.lookup name = .ok s := by
  simp [lookup, hname, hterminal, h]

theorem lookup_of_unknown (hname : name ≠ "") (hterminal : t.find? .terminal name = none)
    (hnonterminal : t.find? .nonterminal name = none) :
    t.lookup name = .error (.unknownSymbol name) := by
  simp [lookup, hname, hterminal, hnonterminal]

/-- A symbol that is looked up has the name it is looked up by. -/
theorem getElem?_of_lookup (h : t.lookup name = .ok s) :
    t.entries[s.number]? = some (s.kind, name) := by
  have hfound : ∃ kind, t.find? kind name = some s := by
    by_cases hname : name = ""
    · simp [lookup, hname] at h
    · cases hterminal : t.find? .terminal name with
      | some s' =>
        rw [lookup_of_terminal hname hterminal, Except.ok.injEq] at h
        exact ⟨_, h ▸ hterminal⟩
      | none =>
        cases hnonterminal : t.find? .nonterminal name with
        | some s' =>
          rw [lookup_of_nonterminal hname hterminal hnonterminal, Except.ok.injEq] at h
          exact ⟨_, h ▸ hnonterminal⟩
        | none => simp [lookup_of_unknown hname hterminal hnonterminal] at h
  obtain ⟨kind, hfind⟩ := hfound
  obtain ⟨hkind, hentry⟩ := getElem?_of_find? hfind
  rw [hentry, hkind]

/-- Every symbol is of one kind. -/
theorem size_eq (t : SymbolTable) :
    t.size = (t.names .terminal).length + (t.names .nonterminal).length := by
  obtain ⟨entries⟩ := t
  simp only [size, names]
  induction entries with
  | nil => rfl
  | cons entry entries ih =>
    obtain ⟨kind, name⟩ := entry
    cases kind <;> simp [ih] <;> omega

/-- The name in an entry of the given kind. -/
def nameUnder (kind : SymbolKind) (entry : SymbolKind × String) : Option String :=
  if entry.1 = kind then some entry.2 else none

theorem nameUnder_eq_some_iff {entry : SymbolKind × String} :
    nameUnder kind entry = some name ↔ entry = (kind, name) := by
  simp [nameUnder, Prod.ext_iff]

theorem names_eq_filterMap (t : SymbolTable) (kind : SymbolKind) :
    t.names kind = t.entries.filterMap (nameUnder kind) := rfl

theorem nodup_names (ht : t.entries.Nodup) (kind : SymbolKind) : (t.names kind).Nodup := by
  rw [names_eq_filterMap]
  refine ht.filterMap fun e e' name he he' => ?_
  rw [Option.mem_def, nameUnder_eq_some_iff] at he he'
  rw [he, he']

end SymbolTable

/-! ## Questions and their answers -/

/-- A question to a symbol table. -/
inductive Request where
  /-- For the symbol of a kind and name, which is added if need be. -/
  | intern (kind : SymbolKind) (name : String)
  /-- For the symbol of a name, of either kind. -/
  | lookup (name : String)
deriving DecidableEq, Repr

namespace Request

/-- The name that is asked for. -/
def name : Request → String
  | intern _ name => name
  | lookup name => name

/-- The answer of a table, and the table afterwards. -/
def serve (t : SymbolTable) : Request → Except Error Symbol × SymbolTable
  | intern kind name =>
    match (Automata.intern kind name).run t with
    | .ok s t' => (.ok s, t')
    | .error e t' => (.error e, t')
  | lookup name => (t.lookup name, t)

/-- The kind and name that a table has afterwards, if it is one that can be had. -/
def wants : Request → Option (SymbolKind × String)
  | intern kind name => if name = "" then none else some (kind, name)
  | lookup _ => none

/-- The name, if one of that kind is wanted. -/
def wantsUnder (kind : SymbolKind) (r : Request) : Option String :=
  r.wants.bind (SymbolTable.nameUnder kind)

end Request

/-- The kinds and names that symbols are created for: those that are asked for, each of them once,
in the order of the first requests. -/
def created (requests : List Request) : List (SymbolKind × String) :=
  (requests.filterMap Request.wants).eraseDups

/-- A table that is being asked, with everything it has answered so far. -/
structure Session where
  /-- The questions and their answers, the latest last. -/
  log : List (Request × Except Error Symbol) := []
  /-- The table as it is now. -/
  table : SymbolTable := {}

namespace Session

/-- The session after one more request. -/
def ask (σ : Session) (r : Request) : Session :=
  let (answer, table) := r.serve σ.table
  ⟨σ.log ++ [(r, answer)], table⟩

/-- The session in which an empty table is asked one thing after the other. -/
def of (requests : List Request) : Session := requests.foldl ask {}

theorem of_concat (requests : List Request) (r : Request) :
    of (requests ++ [r]) = (of requests).ask r := by
  simp [of]

@[simp] theorem log_ask (σ : Session) (r : Request) :
    (σ.ask r).log = σ.log ++ [(r, (r.serve σ.table).1)] := rfl

@[simp] theorem table_ask (σ : Session) (r : Request) :
    (σ.ask r).table = (r.serve σ.table).2 := rfl

end Session

namespace Request

variable {t : SymbolTable} {s : Symbol} {kind : SymbolKind} {name : String} {r : Request}

/-- Nothing has the empty name. -/
theorem serve_intern_empty (kind : SymbolKind) (t : SymbolTable) :
    (intern kind "").serve t = (.error .emptySymbolName, t) := by
  simp [serve, SymbolTable.run_intern]

/-- **Asking for a kind and name gives a symbol whose entry they are.**  The entry is the last one
of the table if it was not there before, and otherwise the table stays as it is. -/
theorem serve_intern (hname : name ≠ "") (kind : SymbolKind) (t : SymbolTable) :
    ∃ s t', (intern kind name).serve t = (.ok s, t') ∧ s.kind = kind ∧
      t'.entries[s.number]? = some (kind, name) ∧
      t'.entries = if (kind, name) ∈ t.entries then t.entries
        else t.entries ++ [(kind, name)] := by
  cases hrun : (Automata.intern kind name).run t with
  | error e t' =>
    simp only [SymbolTable.run_intern, String.isEmpty_iff, hname, if_false] at hrun
    split at hrun <;> cases hrun
  | ok s t' =>
    obtain ⟨hkind, hentry, hcases⟩ := SymbolTable.intern_cases hrun
    refine ⟨s, t', by simp [serve, hrun], hkind, hentry, ?_⟩
    rcases hcases with rfl | ⟨hnew, hentries⟩
    · rw [if_pos (List.mem_of_getElem? hentry)]
    · rw [if_neg hnew, hentries]

/-- A request that fails leaves the table alone. -/
theorem serve_fails {e : Error} (h : (r.serve t).1 = .error e) : (r.serve t).2 = t := by
  cases r with
  | lookup name => rfl
  | intern kind name =>
    simp only [serve] at h ⊢
    split at h
    · cases h
    · rename_i e' t' hrun
      exact SymbolTable.intern_fails hrun

/-- Whatever is asked, the table only grows. -/
theorem grows_serve (r : Request) (t : SymbolTable) : t.Grows (r.serve t).2 := by
  cases r with
  | lookup name => exact .refl
  | intern kind name =>
    simp only [serve]
    split
    · rename_i s t' hrun
      exact .single ⟨kind, name, s, hrun⟩
    · rename_i e t' hrun
      rw [SymbolTable.intern_fails hrun]

end Request

/-! ## What holds at any time -/

section Created

variable {requests : List Request} {kind : SymbolKind} {name : String}

theorem mem_created :
    (kind, name) ∈ created requests ↔ name ≠ "" ∧ .intern kind name ∈ requests := by
  rw [created, List.mem_eraseDups, List.mem_filterMap]
  constructor
  · rintro ⟨r, hr, hwants⟩
    cases r <;> simp [Request.wants] at hwants
    obtain ⟨hname, rfl, rfl⟩ := hwants
    exact ⟨hname, hr⟩
  · rintro ⟨hname, hr⟩
    exact ⟨_, hr, by simp [Request.wants, hname]⟩

/-- One more request creates at most one more symbol. -/
theorem created_concat_intern (hname : name ≠ "") :
    created (requests ++ [.intern kind name]) =
      if (kind, name) ∈ created requests then created requests
      else created requests ++ [(kind, name)] := by
  simp only [created, List.filterMap_append, List.filterMap_cons, List.filterMap_nil,
    Request.wants, hname, if_false, eraseDups_concat, List.mem_eraseDups]

/-- A request that wants nothing creates nothing. -/
theorem created_concat_of_wants {r : Request} (h : r.wants = none) :
    created (requests ++ [r]) = created requests := by
  simp [created, h]

end Created

namespace Session

variable {σ : Session} {requests : List Request} {r : Request} {s : Symbol}

/-- **A table holds what was asked for, in the order of the first requests.** -/
theorem entries_of (requests : List Request) : (of requests).table.entries = created requests := by
  induction requests using List.reverseRecOn with
  | nil => rfl
  | append_singleton requests r ih =>
    rw [of_concat]
    cases r with
    | lookup name =>
      rw [created_concat_of_wants rfl]
      exact ih
    | intern kind name =>
      by_cases hname : name = ""
      · subst hname
        rw [created_concat_of_wants rfl, ask, Request.serve_intern_empty]
        exact ih
      · obtain ⟨s, t, hserve, _, _, hentries⟩ :=
          Request.serve_intern hname kind (of requests).table
        rw [created_concat_intern hname, ask, hserve, ← ih]
        exact hentries

theorem obtainable_of (requests : List Request) : (of requests).table.Obtainable := by
  induction requests using List.reverseRecOn with
  | nil => exact .refl
  | append_singleton requests r ih =>
    rw [of_concat]
    exact ih.grows (Request.grows_serve r _)

/-- What a session has answered is what its table holds. -/
structure Sound (σ : Session) : Prop where
  /-- The number of a symbol leads to its kind and to the name it was asked for by. -/
  entry : ∀ r s, (r, .ok s) ∈ σ.log → σ.table.entries[s.number]? = some (s.kind, r.name)
  /-- Only the empty name is refused, and the kind is the one that was asked for. -/
  interned : ∀ kind name answer, (.intern kind name, answer) ∈ σ.log →
    if name = "" then answer = .error .emptySymbolName else ∃ s, answer = .ok s ∧ s.kind = kind

/-- One more request does not change what the others were answered, and is answered rightly. -/
theorem Sound.ask (h : σ.Sound) (r : Request) : (σ.ask r).Sound where
  entry r' s hs := by
    simp only [log_ask, List.mem_append, List.mem_singleton, Prod.mk.injEq] at hs
    rw [table_ask]
    rcases hs with hs | ⟨rfl, hs⟩
    · exact (Request.grows_serve r σ.table).getElem? (h.entry r' s hs)
    · cases r' with
      | lookup name => exact SymbolTable.getElem?_of_lookup hs.symm
      | intern kind name =>
        by_cases hname : name = ""
        · simp [hname, Request.serve_intern_empty] at hs
        · obtain ⟨s', t, hserve, hkind, hentry, _⟩ := Request.serve_intern hname kind σ.table
          rw [hserve, Except.ok.injEq] at hs
          rw [hserve, hs, hkind]
          exact hentry
  interned kind name answer ha := by
    simp only [log_ask, List.mem_append, List.mem_singleton, Prod.mk.injEq] at ha
    rcases ha with ha | ⟨rfl, rfl⟩
    · exact h.interned kind name answer ha
    · split
      · rename_i hname
        rw [hname, Request.serve_intern_empty]
      · rename_i hname
        obtain ⟨s, t, hserve, hkind, _⟩ := Request.serve_intern hname kind σ.table
        exact ⟨s, by rw [hserve], hkind⟩

theorem sound_of (requests : List Request) : (of requests).Sound := by
  induction requests using List.reverseRecOn with
  | nil => exact ⟨fun _ _ h => absurd h List.not_mem_nil, fun _ _ _ h => absurd h List.not_mem_nil⟩
  | append_singleton requests r ih =>
    rw [of_concat]
    exact ih.ask r

/-- Everything that is asked is answered. -/
theorem map_log_of (requests : List Request) : (of requests).log.map Prod.fst = requests := by
  induction requests using List.reverseRecOn with
  | nil => rfl
  | append_singleton requests r ih => simp [of_concat, ih]

/-- The entries of the table are the symbols that were handed out. -/
theorem mem_entries_of {kind : SymbolKind} {name : String} :
    (kind, name) ∈ (of requests).table.entries ↔
      ∃ s, (.intern kind name, .ok s) ∈ (of requests).log := by
  rw [entries_of, mem_created]
  constructor
  · rintro ⟨hname, hr⟩
    rw [← map_log_of requests] at hr
    obtain ⟨⟨r, answer⟩, hlog, rfl⟩ := List.mem_map.1 hr
    have hinterned := (sound_of requests).interned kind name answer hlog
    rw [if_neg hname] at hinterned
    obtain ⟨s, rfl, _⟩ := hinterned
    exact ⟨s, hlog⟩
  · rintro ⟨s, hlog⟩
    refine ⟨fun hname => ?_, ?_⟩
    · have hinterned := (sound_of requests).interned kind name _ hlog
      simp [hname] at hinterned
    · rw [← map_log_of requests]
      exact List.mem_map.2 ⟨_, hlog, rfl⟩

/-- A symbol that was handed out is found where it was asked for. -/
theorem find?_of_mem_log {kind : SymbolKind} {name : String}
    (h : (.intern kind name, .ok s) ∈ (of requests).log) :
    name ≠ "" ∧ (of requests).table.find? kind name = some s := by
  have hinterned := (sound_of requests).interned kind name _ h
  split at hinterned
  · cases hinterned
  · rename_i hname
    obtain ⟨_, hs, hkind⟩ := hinterned
    obtain rfl := Except.ok.inj hs
    refine ⟨hname, (SymbolTable.find?_eq_some_iff (obtainable_of requests).nodup).2 ⟨hkind, ?_⟩⟩
    have hentry := (sound_of requests).entry _ s h
    rwa [hkind] at hentry

/-- **Symbols are equal exactly if kind and name are.** -/
theorem symbol_eq_iff {r' : Request} {s' : Symbol} (hs : (r, .ok s) ∈ (of requests).log)
    (hs' : (r', .ok s') ∈ (of requests).log) : s = s' ↔ s.kind = s'.kind ∧ r.name = r'.name := by
  have hentry := (sound_of requests).entry r s hs
  have hentry' := (sound_of requests).entry r' s' hs'
  refine ⟨?_, fun ⟨hkind, hname⟩ => ?_⟩
  · rintro rfl
    rw [hentry, Option.some_inj, Prod.mk.injEq] at hentry'
    exact hentry'
  · have hnodup := (obtainable_of requests).nodup
    have hfind := (SymbolTable.find?_eq_some_iff hnodup).2 ⟨rfl, hentry⟩
    have hfind' := (SymbolTable.find?_eq_some_iff hnodup).2 ⟨rfl, hentry'⟩
    rw [hkind, hname, hfind', Option.some_inj] at hfind
    exact hfind.symm

/-- The names of a kind are those that were asked for, each once, in the order of the first
requests. -/
theorem names_of (requests : List Request) (kind : SymbolKind) : (of requests).table.names kind
    = (requests.filterMap (Request.wantsUnder kind)).eraseDups := by
  have hinj : ∀ e e' name, SymbolTable.nameUnder kind e = some name →
      SymbolTable.nameUnder kind e' = some name → e = e' := by
    intro e e' name he he'
    rw [SymbolTable.nameUnder_eq_some_iff] at he he'
    rw [he, he']
  rw [SymbolTable.names_eq_filterMap, entries_of, created, filterMap_eraseDups hinj,
    List.filterMap_filterMap]
  rfl

/-- What was not handed out is not found. -/
theorem find?_eq_none_of_forall {kind : SymbolKind} {name : String}
    (h : ∀ s, (.intern kind name, .ok s) ∉ (of requests).log) :
    (of requests).table.find? kind name = none := by
  rw [SymbolTable.find?_eq_none_iff, mem_entries_of]
  exact fun ⟨s, hs⟩ => h s hs

/-- The numbers of a table that is not too large are told apart by their last 32 bits. -/
theorem number_eq_of_toUInt32_eq (hsize : (of requests).table.size < UInt32.size) {r' : Request}
    {s' : Symbol} (hs : (r, .ok s) ∈ (of requests).log) (hs' : (r', .ok s') ∈ (of requests).log)
    (heq : s.number.toUInt32 = s'.number.toUInt32) : s.number = s'.number := by
  have hentry := (sound_of requests).entry r s hs
  have hentry' := (sound_of requests).entry r' s' hs'
  have hlt : s.number < (of requests).table.size := (List.getElem?_eq_some_iff.1 hentry).1
  have hlt' : s'.number < (of requests).table.size := (List.getElem?_eq_some_iff.1 hentry').1
  have hmod : s.number % UInt32.size = s'.number % UInt32.size := congrArg UInt32.toNat heq
  rwa [Nat.mod_eq_of_lt (Nat.lt_trans hlt hsize), Nat.mod_eq_of_lt (Nat.lt_trans hlt' hsize)]
    at hmod

/-! ## The promise -/

/-- What a session that began with an empty table promises. -/
structure Faithful (requests : List Request) (σ : Session) : Prop where
  /-- Everything is answered, in order. -/
  answered : σ.log.map Prod.fst = requests
  /-- A kind and a name are given a symbol of that kind, and only the empty name is refused. -/
  interned : ∀ kind name answer, (.intern kind name, answer) ∈ σ.log →
    if name = "" then answer = .error .emptySymbolName else ∃ s, answer = .ok s ∧ s.kind = kind
  /-- Symbols are equal exactly if their kinds and the names they were asked for by are. -/
  symbol_eq_iff : ∀ r s r' s', (r, .ok s) ∈ σ.log → (r', .ok s') ∈ σ.log →
    (s = s' ↔ s.kind = s'.kind ∧ r.name = r'.name)
  /-- A symbol has the name it was asked for by, however long ago that was. -/
  nameOf_eq : ∀ r s, (r, .ok s) ∈ σ.log → σ.table.nameOf s = .ok r.name
  /-- Numbers are given in the order of creation, terminals and nonterminals together. -/
  number_eq : ∀ r s, (r, .ok s) ∈ σ.log → (created requests)[s.number]? = some (s.kind, r.name)
  /-- The size counts the symbols of both kinds. -/
  size_eq : σ.table.size = (σ.table.names .terminal).length + (σ.table.names .nonterminal).length
  /-- The names of a kind are listed in the order in which they were first asked for. -/
  names_eq : ∀ kind, σ.table.names kind = (requests.filterMap (Request.wantsUnder kind)).eraseDups
  /-- No name is listed twice. -/
  names_nodup : ∀ kind, (σ.table.names kind).Nodup
  /-- A name is looked up as the terminal that was handed out for it. -/
  lookup_terminal : ∀ name s, (.intern .terminal name, .ok s) ∈ σ.log →
    σ.table.lookup name = .ok s
  /-- It is looked up as a nonterminal if there is no such terminal. -/
  lookup_nonterminal : ∀ name s, (.intern .nonterminal name, .ok s) ∈ σ.log →
    (∀ s', (.intern .terminal name, .ok s') ∉ σ.log) → σ.table.lookup name = .ok s
  /-- A name without a symbol is not found. -/
  lookup_unknown : ∀ name, (∀ kind s, (.intern kind name, .ok s) ∉ σ.log) →
    σ.table.lookup name = .error (if name = "" then .emptySymbolName else .unknownSymbol name)

/-- Every session is faithful. -/
theorem faithful_of (requests : List Request) : (of requests).Faithful requests where
  answered := map_log_of requests
  interned := (sound_of requests).interned
  symbol_eq_iff _ _ _ _ hs hs' := symbol_eq_iff hs hs'
  nameOf_eq r s hs := by
    have hentry := (sound_of requests).entry r s hs
    exact (SymbolTable.nameOf_eq_ok_iff ⟨_, hentry⟩).2 hentry
  number_eq r s hs := by
    rw [← entries_of]
    exact (sound_of requests).entry r s hs
  size_eq := SymbolTable.size_eq _
  names_eq := names_of requests
  names_nodup := SymbolTable.nodup_names (obtainable_of requests).nodup
  lookup_terminal name s hs := by
    obtain ⟨hname, hfind⟩ := find?_of_mem_log hs
    exact SymbolTable.lookup_of_terminal hname hfind
  lookup_nonterminal name s hs hterminal := by
    obtain ⟨hname, hfind⟩ := find?_of_mem_log hs
    exact SymbolTable.lookup_of_nonterminal hname (find?_eq_none_of_forall hterminal) hfind
  lookup_unknown name hunknown := by
    have hmissing := fun kind => find?_eq_none_of_forall (hunknown kind)
    by_cases hname : name = ""
    · simp [SymbolTable.lookup, hname]
    · rw [if_neg hname]
      exact SymbolTable.lookup_of_unknown hname (hmissing _) (hmissing _)

end Session

/-- **Symbols stand for kinds and names.**  Whatever a table that was empty is asked for, its
answers can be compared instead of kinds and names, and 32 bits of their numbers are enough for that
as long as there are fewer than `2 ^ 32` symbols.  A question that fails leaves no trace. -/
theorem symbols_stand_for_names :
    (∀ requests, (Session.of requests).Faithful requests) ∧
    (∀ requests, (Session.of requests).table.size < UInt32.size → ∀ r s r' s',
      (r, .ok s) ∈ (Session.of requests).log → (r', .ok s') ∈ (Session.of requests).log →
        (s = s' ↔ s.kind = s'.kind ∧ s.number.toUInt32 = s'.number.toUInt32)) ∧
    ∀ (r : Request) (t : SymbolTable) (e : Error),
      (r.serve t).1 = .error e → (r.serve t).2 = t := by
  refine ⟨Session.faithful_of, fun requests hsize r s r' s' hs hs' => ?_,
    fun r t e h => Request.serve_fails h⟩
  constructor
  · rintro rfl
    exact ⟨rfl, rfl⟩
  · rintro ⟨hkind, hbits⟩
    have hnumber := Session.number_eq_of_toUInt32_eq hsize hs hs' hbits
    exact congrArg₂ Symbol.mk hnumber hkind

/-- One name for two symbols, a name that is looked up in between, and two questions that fail. -/
def sharedName : List Request :=
  [.intern .nonterminal "S", .lookup "S", .intern .terminal "", .intern .terminal "S", .lookup "S",
    .lookup "T", .intern .nonterminal "S"]

theorem sharedName_symbols :
    ((Session.of sharedName).log =
        [(.intern .nonterminal "S", .ok ⟨0, .nonterminal⟩),
          (.lookup "S", .ok ⟨0, .nonterminal⟩),
          (.intern .terminal "", .error .emptySymbolName),
          (.intern .terminal "S", .ok ⟨1, .terminal⟩),
          (.lookup "S", .ok ⟨1, .terminal⟩),
          (.lookup "T", .error (.unknownSymbol "T")),
          (.intern .nonterminal "S", .ok ⟨0, .nonterminal⟩)] ∧
      (Session.of sharedName).Faithful sharedName) ∧
    (Session.of sharedName).table.size < UInt32.size ∧
    ((⟨0, .nonterminal⟩ : Symbol) = ⟨1, .terminal⟩ ↔
      SymbolKind.nonterminal = .terminal ∧ (0 : Nat).toUInt32 = (1 : Nat).toUInt32) ∧
    ((Request.lookup "T").serve (Session.of sharedName).table).2
      = (Session.of sharedName).table := by
  have hlog : (Session.of sharedName).log =
      [(.intern .nonterminal "S", .ok ⟨0, .nonterminal⟩),
        (.lookup "S", .ok ⟨0, .nonterminal⟩),
        (.intern .terminal "", .error .emptySymbolName),
        (.intern .terminal "S", .ok ⟨1, .terminal⟩),
        (.lookup "S", .ok ⟨1, .terminal⟩),
        (.lookup "T", .error (.unknownSymbol "T")),
        (.intern .nonterminal "S", .ok ⟨0, .nonterminal⟩)] := by decide
  have hsize : (Session.of sharedName).table.size < UInt32.size := by decide
  refine ⟨⟨hlog, symbols_stand_for_names.1 _⟩, hsize, ?_, ?_⟩
  · exact symbols_stand_for_names.2.1 sharedName hsize (.intern .nonterminal "S") _
      (.intern .terminal "S") _ (by rw [hlog]; simp) (by rw [hlog]; simp)
  · exact symbols_stand_for_names.2.2 _ _ (.unknownSymbol "T") (by decide)

end Automata
