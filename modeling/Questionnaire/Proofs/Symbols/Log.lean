import Mathlib.Data.Finset.Card
import Mathlib.Data.List.Induction
import Questionnaire.Proofs.Symbols.Growth
import Questionnaire.Proofs.Symbols.Meaning

/-! The table as a log of the calls that made it. Scopes and symbols are told apart by when they were added, a scope
knows the last symbol of every name that was defined in it, and a name is looked up on the finite way outwards from a
scope, since a scope is opened within one that was there before. -/

namespace Questionnaire.Table

/-- A call that adds to a table. -/
inductive Call where
  | addScope (owner : ScopeOwner) (enclosing : ScopeId)
  | define (symbol : Symbol)
deriving DecidableEq, Inhabited, Repr

/-- The calls in the order in which they were made. -/
abbrev Log := List Call

namespace Call

def apply (table : Table) : Call → Table
  | addScope owner enclosing => (table.addScope owner enclosing).2
  | define symbol => (table.define symbol).2

def opened? : Call → Option (ScopeOwner × Option ScopeId)
  | addScope owner enclosing => some (owner, some enclosing)
  | define _ => none

def defined? : Call → Option Symbol
  | addScope _ _ => none
  | define symbol => some symbol

/-- The scopes that the call refers to. -/
def scopes : Call → List ScopeId
  | addScope _ enclosing => [enclosing]
  | define symbol => symbol.scope :: symbol.kind.members?.toList

/-- What the call added to a table is in a later one, under the number that the call answered with. -/
def Stands (table later : Table) : Call → Prop
  | addScope owner enclosing =>
    later.owner? (table.addScope owner enclosing).1 = some owner ∧
      later.enclosing? (table.addScope owner enclosing).1 = some enclosing
  | define symbol => later.symbols[(table.define symbol).1]? = some symbol

end Call

def ofCalls (log : Log) : Table := log.foldl Call.apply empty

theorem ofCalls_concat (log : Log) (call : Call) : ofCalls (log ++ [call]) = call.apply (ofCalls log) := by
  rw [ofCalls, List.foldl_concat, ofCalls]

namespace Log

/-- The owners of all scopes with what encloses them. The first scope is that of the survey, which no call opens. -/
def frames (log : Log) : List (ScopeOwner × Option ScopeId) := (.survey, none) :: log.filterMap Call.opened?

def symbols (log : Log) : List Symbol := log.filterMap Call.defined?

/-- How many scopes there are. -/
def count (log : Log) : Nat := log.frames.length

def enclosing? (log : Log) (scope : ScopeId) : Option ScopeId := log.frames[scope]?.bind Prod.snd

/-- The latest symbol of the name that was defined in the scope itself. -/
def latest? (log : Log) (scope : ScopeId) (name : String) : Option SymbolId :=
  (lastSome? (fun symbol : Symbol => guard (symbol.scope = scope ∧ name = symbol.name)) log.symbols).map Prod.fst

/-- The latest symbol of the name that was defined as a member of another symbol. -/
def member? (log : Log) (symbol : SymbolId) (name : String) : Option SymbolId := do
  log.latest? (← (← log.symbols[symbol]?).kind.members?) name

/-- The names that were defined, with their scopes. -/
def keys (log : Log) : List (ScopeId × String) := log.symbols.map fun symbol => (symbol.scope, symbol.name)

/-- Every call refers only to scopes that there were when it was made. -/
def Valid (log : Log) : Prop :=
  ∀ index (h : index < log.length), ∀ scope ∈ log[index].scopes, scope < count (log.take index)

instance (log : Log) : Decidable log.Valid :=
  inferInstanceAs (Decidable (∀ index (h : index < log.length), ∀ scope ∈ log[index].scopes,
    scope < count (log.take index)))

/-- The way from a scope through those that enclose it. -/
inductive Outwards (log : Log) : ScopeId → List ScopeId → Prop where
  | last {scope : ScopeId} (h : log.enclosing? scope = none) : Outwards log scope [scope]
  | next {scope outer : ScopeId} {path : List ScopeId} (h : log.enclosing? scope = some outer)
      (hpath : Outwards log outer path) : Outwards log scope (scope :: path)

variable {log : Log} {call : Call} {symbol : Symbol} {scope outer : ScopeId} {name : String}

/-- There is one way from a scope. -/
theorem Outwards.unique {path other : List ScopeId} (h : Outwards log scope path) (hother : Outwards log scope other) :
    path = other := by
  induction h generalizing other with
  | last hlast =>
      cases hother with
      | last => rfl
      | next houter => cases hlast.symm.trans houter
  | @next scope outer path houter hpath ih =>
      cases hother with
      | last hlast => cases hlast.symm.trans houter
      | next houter' hrest =>
          cases houter.symm.trans houter'
          rw [ih hrest]

theorem frames_append (log more : Log) : frames (log ++ more) = log.frames ++ more.filterMap Call.opened? := by
  rw [frames, List.filterMap_append, frames, List.cons_append]

theorem symbols_append (log more : Log) : symbols (log ++ more) = log.symbols ++ more.filterMap Call.defined? := by
  rw [symbols, List.filterMap_append, symbols]

theorem frames_concat : frames (log ++ [call]) = log.frames ++ call.opened?.toList := by
  rw [frames_append]
  cases call <;> rfl

theorem frames_define : frames (log ++ [.define symbol]) = log.frames := by
  rw [frames_concat]
  exact List.append_nil _

theorem getElem?_frames_addScope {owner : ScopeOwner} : (frames (log ++ [.addScope owner outer]))[scope]? =
    if scope = log.count then some (owner, some outer) else log.frames[scope]? := by
  rw [frames_concat, count]
  show (log.frames ++ [(owner, some outer)])[scope]? = _
  rcases Nat.lt_trichotomy scope log.frames.length with hbefore | rfl | hafter
  · rw [List.getElem?_append_left hbefore, if_neg (Nat.ne_of_lt hbefore)]
  · rw [List.getElem?_concat_length, if_pos rfl]
  · rw [if_neg (Nat.ne_of_gt hafter), List.getElem?_eq_none (Nat.le_of_lt hafter), List.getElem?_eq_none]
    rw [List.length_append]
    exact hafter

theorem symbols_concat : symbols (log ++ [call]) = log.symbols ++ call.defined?.toList := by
  rw [symbols_append]
  cases call <;> rfl

theorem latest?_addScope {owner : ScopeOwner} :
    latest? (log ++ [.addScope owner outer]) scope name = log.latest? scope name := by
  rw [latest?, symbols_concat, Call.defined?, Option.toList_none, List.append_nil, latest?]

theorem latest?_define : latest? (log ++ [.define symbol]) scope name =
    if symbol.scope = scope ∧ name = symbol.name then some log.symbols.length else log.latest? scope name := by
  rw [latest?, symbols_concat, Call.defined?, Option.toList_some, lastSome?_concat, latest?]
  by_cases h : symbol.scope = scope ∧ name = symbol.name
  · rw [if_pos h, guard, if_pos h]
    rfl
  · rw [if_neg h, guard, if_neg h]
    rfl

theorem isSome_latest?_iff (log : Log) (scope : ScopeId) (name : String) :
    (log.latest? scope name).isSome = true ↔ (scope, name) ∈ log.keys := by
  induction log using List.reverseRecOn with
  | nil => exact iff_of_false Bool.false_ne_true List.not_mem_nil
  | append_singleton log call ih =>
      rw [keys, symbols_concat, List.map_append, List.mem_append, ← keys, ← ih]
      cases call with
      | addScope owner enclosing =>
          rw [latest?_addScope]
          exact (or_iff_left List.not_mem_nil).symm
      | define symbol =>
          have hsame :
              (scope, name) ∈ [(symbol.scope, symbol.name)] ↔ symbol.scope = scope ∧ name = symbol.name := by
            rw [List.mem_singleton, Prod.mk.injEq, eq_comm (a := scope)]
          rw [latest?_define]
          show _ ↔ _ ∨ (scope, name) ∈ [(symbol.scope, symbol.name)]
          rw [hsame]
          split
          next h => exact iff_of_true rfl (.inr h)
          next h => exact (or_iff_left h).symm

theorem Valid.of_append {more : Log} (h : Valid (log ++ more)) : log.Valid := by
  intro index hindex scope hscope
  have hfound := h index (by rw [List.length_append]; exact Nat.lt_add_right _ hindex) scope
  rw [List.getElem_append_left hindex, List.take_append_of_le_length (Nat.le_of_lt hindex)] at hfound
  exact hfound hscope

theorem valid_concat : Valid (log ++ [call]) ↔ log.Valid ∧ ∀ scope ∈ call.scopes, scope < log.count := by
  constructor
  · intro h
    refine ⟨h.of_append, fun scope hscope => ?_⟩
    have hfound := h log.length (by simp) scope
    rw [List.getElem_concat_length rfl, List.take_left] at hfound
    exact hfound hscope
  · rintro ⟨hlog, hcall⟩ index hindex
    rw [List.length_append, List.length_singleton] at hindex
    rcases Nat.lt_or_eq_of_le (Nat.le_of_lt_succ hindex) with hlt | rfl
    · rw [List.getElem_append_left hlt, List.take_append_of_le_length (Nat.le_of_lt hlt)]
      exact hlog index hlt
    · rw [List.getElem_concat_length rfl, List.take_left]
      exact hcall

end Log

variable {table : Table} {log : Log} {scope outer : ScopeId} {name : String}

/-- The owners of all scopes with what encloses them. -/
def frames (table : Table) : List (ScopeOwner × Option ScopeId) :=
  table.scopes.toList.map fun found => (found.owner, found.enclosing)

theorem length_frames (table : Table) : table.frames.length = table.scopes.size := by
  rw [frames, List.length_map, Array.length_toList]

theorem getElem?_frames (table : Table) (scope : ScopeId) :
    table.frames[scope]? = table.scopes[scope]?.map fun found => (found.owner, found.enclosing) := by
  rw [frames, List.getElem?_map, Array.getElem?_toList]

theorem frames_addScope (table : Table) (owner : ScopeOwner) (outer : ScopeId) :
    (table.addScope owner outer).2.frames = table.frames ++ [(owner, some outer)] := by
  rw [frames, addScope, Array.toList_push, List.map_append, frames]
  rfl

theorem frames_define (table : Table) (symbol : Symbol) : (table.define symbol).2.frames = table.frames := by
  refine List.ext_getElem? fun scope => ?_
  rw [getElem?_frames, getElem?_frames, getElem?_scopes_define]
  split
  next => rw [Option.map_map]; rfl
  next => rfl

/-- The names that the table knows, with the scopes that know them. -/
def keys (table : Table) : List (ScopeId × String) :=
  table.scopes.toList.zipIdx.flatMap fun found => found.1.entries.map fun entry => (found.2, entry.1)

theorem isSome_find?_iff (found : Scope) (name : String) :
    (found.find? name).isSome = true ↔ name ∈ found.entries.map Prod.fst := by
  rw [Scope.find?, Option.isSome_iff_ne_none, ne_eq, List.lookup_eq_none_iff, List.mem_map]
  simp [eq_comm (a := name)]

theorem mem_keys_iff : (scope, name) ∈ table.keys ↔ (table.known? scope name).isSome = true := by
  rw [keys, List.mem_flatMap, known?]
  constructor
  · rintro ⟨⟨found, index⟩, hfound, hmem⟩
    obtain ⟨entry, hentry, heq⟩ := List.mem_map.mp hmem
    cases heq
    have hscope := List.mem_zipIdx_iff_getElem?.mp hfound
    rw [Array.getElem?_toList] at hscope
    rw [hscope, Option.bind_some, isSome_find?_iff]
    exact List.mem_map_of_mem hentry
  · intro hknown
    obtain ⟨id, hid⟩ := Option.isSome_iff_exists.mp hknown
    obtain ⟨found, hfound, hfind⟩ := Option.bind_eq_some_iff.mp hid
    obtain ⟨entry, hentry, rfl⟩ := List.mem_map.mp ((isSome_find?_iff found name).mp (by rw [hfind]; rfl))
    refine ⟨(found, scope), ?_, List.mem_map.mpr ⟨entry, hentry, rfl⟩⟩
    rwa [List.mem_zipIdx_iff_getElem?, Array.getElem?_toList]

theorem length_keys (table : Table) : table.keys.length = table.size := by
  have hlist (scopes : List Scope) (index : Nat) :
      ((scopes.zipIdx index).flatMap fun found => found.1.entries.map fun entry => (found.2, entry.1)).length =
        (scopes.flatMap fun found => found.entries.map Prod.snd).length := by
    induction scopes generalizing index with
    | nil => rfl
    | cons scope scopes ih =>
        rw [List.zipIdx_cons, List.flatMap_cons, List.flatMap_cons, List.length_append, List.length_append, ih,
          List.length_map, List.length_map]
  exact hlist table.scopes.toList 0

/-- No scope knows a name twice. -/
def Unambiguous (table : Table) : Prop :=
  ∀ (scope : ScopeId) found, table.scopes[scope]? = some found → (found.entries.map Prod.fst).Nodup

theorem nodup_insert {found : Scope} (h : (found.entries.map Prod.fst).Nodup) (name : String) (id : SymbolId) :
    ((found.insert name id).entries.map Prod.fst).Nodup := by
  rw [Scope.insert, List.map_cons, List.nodup_cons]
  refine ⟨fun hmem => ?_, h.sublist (List.filter_sublist.map Prod.fst)⟩
  obtain ⟨entry, hentry, hname⟩ := List.mem_map.mp hmem
  simpa [hname] using (List.mem_filter.mp hentry).2

theorem Unambiguous.nodup_keys (h : table.Unambiguous) : table.keys.Nodup := by
  rw [keys, List.nodup_flatMap]
  constructor
  · rintro ⟨found, index⟩ hmem
    have hfound := List.mem_zipIdx_iff_getElem?.mp hmem
    rw [Array.getElem?_toList] at hfound
    have hpair : (fun entry : String × SymbolId => (index, entry.1)) = Prod.mk index ∘ Prod.fst := rfl
    rw [hpair, ← List.map_map]
    exact (h index found hfound).map fun _ _ hsame => (Prod.mk.inj hsame).2
  · have hindices : (table.scopes.toList.zipIdx.map Prod.snd).Nodup := by
      rw [List.zipIdx_map_snd]
      exact List.nodup_range'
    refine (List.pairwise_map.mp hindices).imp fun {left right} hne key hleft hright => ?_
    obtain ⟨_, -, rfl⟩ := List.mem_map.mp hleft
    obtain ⟨_, -, hsame⟩ := List.mem_map.mp hright
    exact hne (Prod.mk.inj hsame).1.symm

theorem Unambiguous.addScope (h : table.Unambiguous) (owner : ScopeOwner) (outer : ScopeId) :
    (table.addScope owner outer).2.Unambiguous := by
  intro scope found hfound
  rw [getElem?_scopes_addScope] at hfound
  split at hfound
  next =>
    cases hfound
    exact List.nodup_nil
  next => exact h scope found hfound

theorem Unambiguous.define (h : table.Unambiguous) (symbol : Symbol) : (table.define symbol).2.Unambiguous := by
  intro scope found hfound
  rw [getElem?_scopes_define] at hfound
  split at hfound
  next =>
    obtain ⟨before, hbefore, rfl⟩ := Option.map_eq_some_iff.mp hfound
    exact nodup_insert (h scope before hbefore) symbol.name table.symbols.size
  next => exact h scope found hfound

/-- The table has what its log says, and no more. -/
structure Records (table : Table) (log : Log) : Prop where
  symbols : table.symbols.toList = log.symbols
  frames : table.frames = log.frames
  known : ∀ scope name, table.known? scope name = log.latest? scope name
  within : ∀ {scope outer}, log.enclosing? scope = some outer → outer < scope
  unambiguous : table.Unambiguous

namespace Records

theorem empty : Table.empty.Records [] where
  symbols := rfl
  frames := rfl
  known scope name := by cases scope <;> rfl
  within {scope outer} h := by cases scope <;> cases h
  unambiguous scope found h := by
    cases scope with
    | zero =>
        cases h
        exact List.nodup_nil
    | succ index => cases h

theorem size (h : table.Records log) : table.scopes.size = log.count := by
  rw [← length_frames, h.frames, Log.count]

theorem known?_eq_none (h : table.Records log) (hle : log.count ≤ scope) (name : String) :
    table.known? scope name = none := by
  rw [known?, Array.getElem?_eq_none (h.size ▸ hle), Option.bind_none]

theorem addScope (h : table.Records log) (owner : ScopeOwner) (hlt : outer < log.count) :
    (table.addScope owner outer).2.Records (log ++ [.addScope owner outer]) where
  symbols := by
    rw [Log.symbols_concat, ← h.symbols]
    exact (List.append_nil _).symm
  frames := by
    rw [frames_addScope, h.frames, Log.frames_concat]
    rfl
  known scope name := by
    rw [Log.latest?_addScope, ← h.known]
    rcases Nat.lt_trichotomy scope table.scopes.size with hbefore | rfl | hafter
    · exact (Grows.addScope table owner outer).known scope hbefore nofun name
    · rw [known?_addScope_self, h.known?_eq_none (Nat.le_of_eq h.size.symm)]
    · rw [h.known?_eq_none (h.size ▸ Nat.le_of_lt hafter), known?, Array.getElem?_eq_none, Option.bind_none]
      rw [size_scopes_addScope]
      exact hafter
  within {scope inner} hinner := by
    rw [Log.enclosing?, Log.getElem?_frames_addScope] at hinner
    split at hinner
    next heq =>
      cases hinner
      exact heq ▸ hlt
    next => exact h.within hinner
  unambiguous := h.unambiguous.addScope owner outer

theorem define {symbol : Symbol} (h : table.Records log) (hlt : symbol.scope < log.count) :
    (table.define symbol).2.Records (log ++ [.define symbol]) where
  symbols := by
    rw [Log.symbols_concat, ← h.symbols, symbols_define, Array.toList_push]
    rfl
  frames := by rw [frames_define, h.frames, Log.frames_define]
  known scope name := by
    rw [Log.latest?_define, ← h.known, ← h.symbols, Array.length_toList]
    by_cases hscope : scope < table.scopes.size
    · exact Grows.known?_define table symbol hscope name
    · have hle := Nat.le_of_not_lt hscope
      rw [known?, Array.getElem?_eq_none (by rwa [size_scopes_define]), if_neg, h.known?_eq_none (h.size ▸ hle)]
      · rfl
      · rintro ⟨rfl, -⟩
        exact hscope (h.size ▸ hlt)
  within {scope inner} hinner := by
    rw [Log.enclosing?, Log.frames_define] at hinner
    exact h.within hinner
  unambiguous := h.unambiguous.define symbol

/-- The run: every call of a valid log keeps the table in step with it. -/
theorem ofCalls (hvalid : log.Valid) : (Table.ofCalls log).Records log := by
  induction log using List.reverseRecOn with
  | nil => exact empty
  | append_singleton log call ih =>
      obtain ⟨hlog, hcall⟩ := Log.valid_concat.mp hvalid
      rw [ofCalls_concat]
      cases call with
      | addScope owner outer => exact (ih hlog).addScope owner (hcall outer (List.mem_singleton_self outer))
      | define symbol => exact (ih hlog).define (hcall symbol.scope List.mem_cons_self)

theorem resolve_eq_none (hlt : scope < table.scopes.size) (hnone : table.known? scope name = none)
    (hroot : table.enclosing? scope = none) : table.resolve scope name = none := by
  have hfound := Array.getElem?_eq_getElem hlt
  rw [known?, hfound] at hnone
  rw [enclosing?, hfound] at hroot
  exact resolve_of_root hfound hnone hroot

variable (h : table.Records log)
include h

theorem enclosing?_eq (scope : ScopeId) : table.enclosing? scope = log.enclosing? scope := by
  rw [Log.enclosing?, ← h.frames, getElem?_frames, Option.bind_map, enclosing?]
  rfl

theorem resolveMember_eq : table.resolveMember = log.member? := by
  funext symbol name
  rw [Log.member?, ← h.symbols, Array.getElem?_toList]
  simp only [resolveMember, members?, Option.bind_eq_bind, Option.bind_assoc, ← h.known]
  rfl

/-- A name is looked up on the way outwards, which comes to smaller scopes only. -/
theorem exists_outwards (hlt : scope < log.count) : ∃ path, log.Outwards scope path ∧
    (∀ inner ∈ path, inner ≤ scope) ∧ path.Pairwise (· > ·) ∧
      ∀ name, table.resolve scope name = path.findSome? fun inner => log.latest? inner name := by
  induction scope using Nat.strong_induction_on with
  | _ scope ih =>
      cases houter : log.enclosing? scope with
      | none =>
          refine ⟨[scope], .last houter, by simp, List.pairwise_singleton _ _, fun name => ?_⟩
          rw [List.findSome?_singleton, ← h.known]
          cases hknown : table.known? scope name with
          | none => exact resolve_eq_none (h.size ▸ hlt) hknown ((h.enclosing?_eq scope).trans houter)
          | some id => exact resolve_eq_of_known hknown
      | some outer =>
          have hsmaller := h.within houter
          obtain ⟨path, hpath, hbelow, hsorted, hresolve⟩ := ih outer hsmaller (Nat.lt_trans hsmaller hlt)
          have hinner : ∀ inner ∈ path, scope > inner := fun inner hinner =>
            Nat.lt_of_le_of_lt (hbelow inner hinner) hsmaller
          have hsorted := List.pairwise_cons.mpr ⟨hinner, hsorted⟩
          refine ⟨scope :: path, .next houter hpath, ?_, hsorted, fun name => ?_⟩
          · exact List.forall_mem_cons.mpr ⟨Nat.le_refl scope, fun inner hmem => Nat.le_of_lt (hinner inner hmem)⟩
          · rw [List.findSome?_cons, ← h.known]
            have houter := (h.enclosing?_eq scope).trans houter
            cases hknown : table.known? scope name with
            | none => exact (resolve_eq_outer hknown houter hsmaller).trans (hresolve name)
            | some id => exact resolve_eq_of_known hknown

theorem size_eq : table.size = log.keys.toFinset.card := by
  rw [← length_keys, ← List.toFinset_card_of_nodup h.unambiguous.nodup_keys]
  congr 1
  ext ⟨scope, name⟩
  rw [List.mem_toFinset, List.mem_toFinset, mem_keys_iff, h.known, Log.isSome_latest?_iff]

theorem resolvePath_eq (scope : ScopeId) (path : List String) : table.resolvePath scope path =
    path.head?.bind fun name => (table.resolve scope name).bind fun symbol => path.tail.foldlM log.member? symbol := by
  cases path with
  | nil => rfl
  | cons name members =>
      rw [resolvePath, h.resolveMember_eq]
      rfl

theorem size_eq_zero_iff : table.size = 0 ↔ log.symbols = [] := by
  rw [h.size_eq, Finset.card_eq_zero, List.toFinset_eq_empty_iff, Log.keys, List.map_eq_nil_iff]

end Records

/-- The table is no more and no less than what its log says. -/
structure Refines (table : Table) (log : Log) : Prop where
  symbols : table.symbols.toList = log.symbols
  frames : table.frames = log.frames
  within : ∀ {scope outer}, table.enclosing? scope = some outer → outer < scope
  resolve : ∀ scope < log.count, ∃ path, log.Outwards scope path ∧ path.Pairwise (· > ·) ∧
    ∀ name, table.resolve scope name = path.findSome? fun inner => log.latest? inner name
  resolveMember : ∀ symbol name, table.resolveMember symbol name = log.member? symbol name
  resolvePath : ∀ scope path, table.resolvePath scope path = path.head?.bind fun name =>
    (table.resolve scope name).bind fun symbol => path.tail.foldlM log.member? symbol
  size : table.size = log.keys.toFinset.card
  isEmpty : table.isEmpty = true ↔ table.size = 0
  size_eq_zero_iff : table.size = 0 ↔ log.symbols = []

theorem Records.refines (h : table.Records log) : table.Refines log where
  symbols := h.symbols
  frames := h.frames
  within houter := h.within ((h.enclosing?_eq _).symm.trans houter)
  resolve scope hlt := by
    obtain ⟨path, hpath, -, hsorted, hresolve⟩ := h.exists_outwards hlt
    exact ⟨path, hpath, hsorted, hresolve⟩
  resolveMember symbol name := by rw [h.resolveMember_eq]
  resolvePath := h.resolvePath_eq
  size := h.size_eq
  isEmpty := beq_iff_eq
  size_eq_zero_iff := h.size_eq_zero_iff

theorem Records.stands {call : Call} {before after : Log} {earlier : Table} (hbefore : earlier.Records before)
    (h : table.Records (before ++ call :: after)) : call.Stands earlier table := by
  cases call with
  | addScope owner outer =>
      have hframe : table.frames[earlier.scopes.size]? = some (owner, some outer) := by
        rw [h.frames, Log.frames_append, hbefore.size, Log.count, List.getElem?_append_right (Nat.le_refl _),
          Nat.sub_self]
        rfl
      rw [getElem?_frames, Option.map_eq_some_iff] at hframe
      obtain ⟨found, hfound, heq⟩ := hframe
      obtain ⟨howner, houter⟩ := Prod.mk.inj heq
      refine ⟨?_, ?_⟩
      · show table.owner? earlier.scopes.size = some owner
        rw [owner?, hfound, Option.map_some, howner]
      · show table.enclosing? earlier.scopes.size = some outer
        rw [enclosing?, hfound, Option.bind_some, houter]
  | define symbol =>
      show table.symbols[earlier.symbols.size]? = some symbol
      rw [← Array.getElem?_toList, h.symbols, Log.symbols_append, ← hbefore.symbols, ← Array.length_toList,
        List.getElem?_append_right (Nat.le_refl _), Nat.sub_self]
      rfl

/-- After any calls that refer only to scopes that there were, the table is what the log of the calls says: names are
looked up on the finite way outwards, by their latest definitions. What a call added stays under the number that the
call answered with, behind what there was before it. -/
theorem ofCalls_refines (h : log.Valid) : (ofCalls log).Refines log ∧
    ∀ before call after, log = before ++ call :: after → call.Stands (ofCalls before) (ofCalls log) ∧
      (ofCalls before).symbols.toList <+: (ofCalls log).symbols.toList ∧
      (ofCalls before).frames <+: (ofCalls log).frames := by
  have hrecords := Records.ofCalls h
  refine ⟨hrecords.refines, fun before call after hlog => ?_⟩
  subst hlog
  have hbefore := Records.ofCalls h.of_append
  refine ⟨hbefore.stands hrecords, ?_, ?_⟩
  · rw [hbefore.symbols, hrecords.symbols, Log.symbols_append]
    exact List.prefix_append _ _
  · rw [hbefore.frames, hrecords.frames, Log.frames_append]
    exact List.prefix_append _ _

/-- A question with a row, and a name that is defined twice in an interlude. -/
theorem ofCalls_refines_interlude :
    let log : Log :=
      [.addScope (.members 0) 0, .define ⟨"q", .question 1, [0], 0, ⟨1, 1⟩⟩, .addScope (.members 1) 1,
        .define ⟨"r", .row 2, [1, 0], 1, ⟨1, 9⟩⟩, .addScope (.interlude [1] ⟨2, 1⟩) 0,
        .define ⟨"x", .declaration, [0, 1], 3, ⟨2, 8⟩⟩, .define ⟨"x", .action, [1, 1], 3, ⟨3, 8⟩⟩]
    log.Valid ∧ (ofCalls log).resolve 3 "x" = some 3 ∧ (ofCalls log).resolve 3 "q" = some 0 ∧
      (ofCalls log).resolve 3 "r" = none ∧ (ofCalls log).resolvePath 3 ["q", "r"] = some 1 ∧
      (ofCalls log).size = 3 := by
  intro log
  have hvalid : log.Valid := by decide
  have hrefines := (ofCalls_refines hvalid).1
  obtain ⟨path, hpath, -, hresolve⟩ := hrefines.resolve 3 (by decide)
  obtain rfl : path = [3, 0] := hpath.unique (.next rfl (.last rfl))
  refine ⟨hvalid, (hresolve "x").trans (by decide), (hresolve "q").trans (by decide),
    (hresolve "r").trans (by decide), ?_, hrefines.size.trans (by decide)⟩
  rw [hrefines.resolvePath, List.head?_cons, Option.bind_some, hresolve "q"]
  decide

end Questionnaire.Table
