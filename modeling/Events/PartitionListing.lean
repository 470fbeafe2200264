import Mathlib.Data.List.Sort
import Events.Namespaces
import Events.Lib.Tiles

/-!
# The partitions of a namespace

`src/partitions.rs`: `ensure_namespace` and `ensure_partition` make directories below the root, and
`list_partitions` reads them back, among whatever else others have put there: files, links, and names that
are no labels.

* **`Entries`** — what a directory holds, under each name one thing.
* **`ensureNamespace`, `ensurePartition`, `listPartitions`** — the three calls on the tree.
* **`Inv`** — what a run has left in the tree, against the partitions that it has returned.
* **`partitions_listed`** — the listing gives them back, sorted, each once.
-/

namespace Events.PartitionListing

open Partitions (PartitionDescriptor SafeLabel validateSafeLabel_iff)

/-! ## The tree -/

/-- The name of a directory's entry. -/
inductive FileName where
  | text (t : Text)
  /-- Not UTF-8. -/
  | bytes (b : List UInt8)
  deriving DecidableEq

/-- `FileType`; `read_dir` does not follow a link, `create_dir_all` does. -/
inductive FileType where
  | directory
  | linkToDirectory
  | other
  deriving DecidableEq

/-- What a directory holds, in the order in which `read_dir` lists it. -/
structure Entries where
  list : List (FileName × FileType)
  nodup : (list.map Prod.fst).Nodup

namespace Entries

def empty : Entries := ⟨[], List.nodup_nil⟩

def find (es : Entries) (name : FileName) : Option FileType := es.list.lookup name

theorem find_eq_some {es : Entries} {name : FileName} {type : FileType} :
    es.find name = some type ↔ (name, type) ∈ es.list := by
  obtain ⟨list, nodup⟩ := es
  show list.lookup name = some type ↔ (name, type) ∈ list
  induction list with
  | nil => simp
  | cons entry list ih =>
    obtain ⟨name', type'⟩ := entry
    rw [List.map_cons, List.nodup_cons] at nodup
    rw [List.lookup_cons, List.mem_cons, Prod.mk.injEq]
    by_cases hname : name = name'
    · subst hname
      have hnot : (name, type) ∉ list := fun hmem => nodup.1 (List.mem_map.2 ⟨_, hmem, rfl⟩)
      simp [hnot, eq_comm]
    · have hbeq : (name == name') = false := by simpa using hname
      rw [hbeq]
      simp [hname, ih nodup.2]

theorem find_eq_none {es : Entries} {name : FileName} :
    es.find name = none ↔ name ∉ es.list.map Prod.fst := by
  rw [← not_iff_not, ← ne_eq, Option.ne_none_iff_exists']
  simp [find_eq_some]

/-- A new entry. -/
def add (es : Entries) (name : FileName) (type : FileType) (h : es.find name = none) : Entries where
  list := es.list ++ [(name, type)]
  nodup := by
    rw [List.map_append, List.nodup_append]
    refine ⟨es.nodup, by simp, ?_⟩
    rintro a ha b hb rfl
    obtain rfl : a = name := by simpa using hb
    exact find_eq_none.1 h ha

theorem find_add {es : Entries} {name name' : FileName} {type : FileType} {h : es.find name = none} :
    (es.add name type h).find name' = if name' = name then some type else es.find name' := by
  ext type'
  rw [find_eq_some]
  show (name', type') ∈ es.list ++ [(name, type)] ↔ _
  rw [List.mem_append, List.mem_singleton, Prod.mk.injEq, ← find_eq_some]
  split
  · rename_i hname
    subst hname
    simp [h, eq_comm]
  · rename_i hname
    simp [hname]

end Entries

/-- What stands under the name of a namespace. -/
inductive Node where
  | missing
  | directory (entries : Entries)
  | other

/-- The directory below which the namespaces are. -/
abbrev Root := Text → Node

/-! ## The calls -/

/-- The directory of a namespace is made, unless it is there. `taken` is what the system answers where a file
has the name. -/
def mkdirNamespace (taken : String) (fault : Option String) (namespaceName : Text) (root : Root) :
    Except EsError Root :=
  match fault, root namespaceName with
  | some message, _ => .error (.io message)
  | none, .directory _ => .ok root
  | none, .other => .error (.io taken)
  | none, .missing => .ok (Function.update root namespaceName (.directory .empty))

/-- `EventNamespaces::ensure_namespace`. -/
def ensureNamespace (namespaceName : Text) (fault : Option String) (root : Root) :
    Except EsError Unit × Root :=
  match validateSafeLabel "namespace" namespaceName with
  | .error e => (.error e, root)
  | .ok () =>
    match mkdirNamespace "File exists" fault namespaceName root with
    | .error e => (.error e, root)
    | .ok root' => (.ok (), root')

/-- `create_dir_all` of a partition's directory, which may fail at either of its two components. It begins
with the whole path, so a file in the place of the namespace is no directory on the way. -/
def createDirAll (namespaceName partitionKey : Text) (faults : Option String × Option String)
    (root : Root) : Except EsError Unit × Root :=
  match mkdirNamespace "Not a directory" faults.1 namespaceName root with
  | .error e => (.error e, root)
  | .ok root' =>
    match root' namespaceName with
    | .directory entries =>
      match h : entries.find (.text partitionKey), faults.2 with
      | _, some message => (.error (.io message), root')
      | some .directory, none | some .linkToDirectory, none => (.ok (), root')
      | some .other, none => (.error (.io "File exists"), root')
      | none, none =>
        (.ok (), Function.update root' namespaceName
          (.directory (entries.add (.text partitionKey) .directory h)))
    | .missing | .other => (.error (.io "Not a directory"), root')

/-- `EventNamespaces::ensure_partition`. -/
def ensurePartition (namespaceName partitionKey : Text) (faults : Option String × Option String)
    (root : Root) : Except EsError PartitionDescriptor × Root :=
  match validateSafeLabel "namespace" namespaceName, validateSafeLabel "partition_key" partitionKey with
  | .ok (), .ok () =>
    let made := createDirAll namespaceName partitionKey faults root
    (Partitions.ensurePartition namespaceName partitionKey made.1, made.2)
  | _, _ => (Partitions.ensurePartition namespaceName partitionKey (.ok ()), root)

/-- What a listing depends on: the order of the entries, and what fails. -/
structure ListEnv where
  readDir : Option String := none
  order : List (FileName × FileType) → List (FileName × FileType) := id
  perm : ∀ list, (order list).Perm list
  /-- The failure of `next_entry` or `file_type`. -/
  entry : Nat → Option String := fun _ => none

/-- What the loop of `list_partitions` makes of an entry: a directory whose name is a label. -/
def descriptorOf (namespaceName : Text)
    (hn : validateSafeLabel "namespace" namespaceName = .ok ()) :
    FileName × FileType → Option PartitionDescriptor
  | (.text partitionKey, .directory) =>
    if hk : validateSafeLabel "partition_key" partitionKey = .ok () then
      some ⟨namespaceName, partitionKey, hn, hk⟩
    else none
  | _ => none

/-- The loop of `list_partitions`, from its entry `i` on. -/
def collect (namespaceName : Text) (hn : validateSafeLabel "namespace" namespaceName = .ok ())
    (fault : Nat → Option String) :
    Nat → List (FileName × FileType) → Except EsError (List PartitionDescriptor)
  | i, [] =>
    match fault i with
    | some message => .error (.io message)
    | none => .ok []
  | i, entry :: rest =>
    match fault i with
    | some message => .error (.io message)
    | none =>
      (collect namespaceName hn fault (i + 1) rest).map fun descriptors =>
        (descriptorOf namespaceName hn entry).toList ++ descriptors

/-- `a.partition_key.cmp(&b.partition_key)`. -/
def keyLe (p q : PartitionDescriptor) : Prop := p.partitionKey ≤ q.partitionKey

instance : DecidableRel keyLe := fun p q => inferInstanceAs (Decidable (p.partitionKey ≤ q.partitionKey))

/-- `EventNamespaces::list_partitions`. -/
def listPartitions (namespaceName : Text) (env : ListEnv) (root : Root) :
    Except EsError (List PartitionDescriptor) :=
  match hn : validateSafeLabel "namespace" namespaceName with
  | .error e => .error e
  | .ok () =>
    match env.readDir, root namespaceName with
    | some message, _ => .error (.io message)
    | none, .missing => .ok []
    | none, .other => .error (.io "Not a directory")
    | none, .directory entries =>
      (collect namespaceName hn env.entry 0 (env.order entries.list)).map
        (List.insertionSort keyLe)

/-! ## Runs -/

/-- A call, or what others do below the root. -/
inductive Op where
  | ensureNamespace (namespaceName : Text) (fault : Option String)
  | ensurePartition (namespaceName partitionKey : Text) (faults : Option String × Option String)
  /-- Others put an entry into the directory of a namespace, if the name is free. -/
  | put (namespaceName : Text) (name : FileName) (type : FileType)
  /-- Others take the name of a namespace, if it is free, for a directory or a file. A link in the place of
  a namespace is left out. -/
  | take (namespaceName : Text) (isDirectory : Bool)

/-- The tree, and the partitions that `ensure_partition` has returned. -/
structure State where
  root : Root
  returned : List PartitionDescriptor

def put (namespaceName : Text) (name : FileName) (type : FileType) (root : Root) : Root :=
  match root namespaceName with
  | .directory entries =>
    match h : entries.find name with
    | none => Function.update root namespaceName (.directory (entries.add name type h))
    | some _ => root
  | .missing | .other => root

def take (namespaceName : Text) (isDirectory : Bool) (root : Root) : Root :=
  match root namespaceName with
  | .missing =>
    Function.update root namespaceName (if isDirectory then .directory .empty else .other)
  | .directory _ | .other => root

def step : Op → State → State
  | .ensureNamespace namespaceName fault, s =>
    { s with root := (ensureNamespace namespaceName fault s.root).2 }
  | .ensurePartition namespaceName partitionKey faults, s =>
    match ensurePartition namespaceName partitionKey faults s.root with
    | (.ok p, root) => ⟨root, s.returned ++ [p]⟩
    | (.error _, root) => ⟨root, s.returned⟩
  | .put namespaceName name type, s => { s with root := put namespaceName name type s.root }
  | .take namespaceName isDirectory, s => { s with root := take namespaceName isDirectory s.root }

/-- The state after a sequence of operations, on an empty root. -/
def run : List Op → State := List.foldl (fun s op => step op s) ⟨fun _ => .missing, []⟩

/-! ## One operation -/

/-- The type of an entry of a namespace. -/
def typeOf (root : Root) (namespaceName : Text) (name : FileName) : Option FileType :=
  match root namespaceName with
  | .directory entries => entries.find name
  | .missing | .other => none

/-- What an operation does: it takes nothing away, and what it adds has a reason. -/
structure Stepped (op : Op) (s s' : State) : Prop where
  keeps : ∀ n name type, typeOf s.root n name = some type → typeOf s'.root n name = some type
  origin : ∀ n name type, typeOf s'.root n name = some type →
    typeOf s.root n name = some type ∨ op = .put n name type ∨
      type = .directory ∧ ∃ p ∈ s'.returned, p.namespaceName = n ∧ name = .text p.partitionKey
  returned : s'.returned = s.returned ∨ ∃ p, s'.returned = s.returned ++ [p] ∧
    (typeOf s'.root p.namespaceName (.text p.partitionKey) = some .directory ∨
      typeOf s'.root p.namespaceName (.text p.partitionKey) = some .linkToDirectory)
  taken : ∀ n, s'.root n = .other → s.root n = .other ∨ op = .take n false

section Steps

variable {root root' : Root} {namespaceName n : Text} {name name' : FileName} {type : FileType}
  {entries : Entries} {op : Op} {s : State}

/-- An operation that adds no entry. -/
theorem Stepped.of_same (htype : ∀ n name, typeOf root n name = typeOf s.root n name)
    (htaken : ∀ n, root n = .other → s.root n = .other ∨ op = .take n false) :
    Stepped op s { s with root := root } where
  keeps := fun n name _ h => (htype n name).trans h
  origin := fun n name _ h => .inl ((htype n name).symm.trans h)
  returned := .inl rfl
  taken := htaken

/-- A new directory has no entries. -/
theorem typeOf_empty (hmissing : root namespaceName = .missing) :
    typeOf (Function.update root namespaceName (.directory .empty)) n name = typeOf root n name := by
  unfold typeOf
  by_cases h : n = namespaceName
  · subst h
    rw [Function.update_self, hmissing]
    rfl
  · rw [Function.update_of_ne h]

theorem typeOf_add (hdirectory : root namespaceName = .directory entries)
    (hfree : entries.find name = none) :
    typeOf (Function.update root namespaceName (.directory (entries.add name type hfree))) n name' =
      if n = namespaceName ∧ name' = name then some type else typeOf root n name' := by
  unfold typeOf
  by_cases h : n = namespaceName
  · subst h
    rw [Function.update_self, hdirectory]
    simp only [Entries.find_add, true_and]
  · rw [Function.update_of_ne h, if_neg fun hn => h hn.1]

/-- Only the node that is set can be new. -/
theorem update_other {node : Node} (hnode : node ≠ .other)
    (h : Function.update root namespaceName node n = .other) : root n = .other := by
  by_cases hn : n = namespaceName
  · subst hn
    rw [Function.update_self] at h
    exact absurd h hnode
  · rwa [Function.update_of_ne hn] at h

theorem mkdirNamespace_ok {taken : String} {fault : Option String}
    (h : mkdirNamespace taken fault namespaceName root = .ok root') :
    (∃ entries, root' namespaceName = .directory entries) ∧
      (∀ n name, typeOf root' n name = typeOf root n name) ∧ ∀ n, root' n = .other → root n = .other := by
  unfold mkdirNamespace at h
  split at h
  · cases h
  · rename_i entries hdirectory
    cases h
    exact ⟨⟨entries, hdirectory⟩, fun _ _ => rfl, fun _ => id⟩
  · cases h
  · rename_i hmissing
    cases h
    exact ⟨⟨.empty, Function.update_self ..⟩, fun _ _ => typeOf_empty hmissing,
      fun _ => update_other (by simp)⟩

/-- The entries, and the names that are no directories, are those of before. -/
structure SameEntries (root root' : Root) : Prop where
  types : ∀ n name, typeOf root' n name = typeOf root n name
  taken : ∀ n, root' n = .other → root n = .other

theorem SameEntries.refl (root : Root) : SameEntries root root := ⟨fun _ _ => rfl, fun _ => id⟩

theorem sameEntries_ensureNamespace {fault : Option String} :
    SameEntries root (ensureNamespace namespaceName fault root).2 := by
  unfold ensureNamespace
  split
  · exact .refl root
  · split
    · exact .refl root
    · rename_i root' hroot
      exact ⟨(mkdirNamespace_ok hroot).2.1, (mkdirNamespace_ok hroot).2.2⟩

/-- How `create_dir_all` of a partition's directory ends: without success, with what is there, or with
a new directory. -/
theorem createDirAll_ends (root : Root) (namespaceName partitionKey : Text)
    (faults : Option String × Option String) :
    (∃ e, (createDirAll namespaceName partitionKey faults root).1 = .error e ∧
      SameEntries root (createDirAll namespaceName partitionKey faults root).2) ∨
    ((createDirAll namespaceName partitionKey faults root).1 = .ok () ∧
      SameEntries root (createDirAll namespaceName partitionKey faults root).2 ∧
      (typeOf root namespaceName (.text partitionKey) = some .directory ∨
        typeOf root namespaceName (.text partitionKey) = some .linkToDirectory)) ∨
    ((createDirAll namespaceName partitionKey faults root).1 = .ok () ∧
      typeOf root namespaceName (.text partitionKey) = none ∧
      (∀ n name, typeOf (createDirAll namespaceName partitionKey faults root).2 n name =
        if n = namespaceName ∧ name = .text partitionKey then some .directory else typeOf root n name) ∧
      ∀ n, (createDirAll namespaceName partitionKey faults root).2 n = .other → root n = .other) := by
  unfold createDirAll
  split
  · rename_i e _
    exact .inl ⟨e, rfl, .refl root⟩
  · rename_i root' hroot
    obtain ⟨⟨entries, hentries⟩, htypes, htaken⟩ := mkdirNamespace_ok hroot
    have hsame : SameEntries root root' := ⟨htypes, htaken⟩
    -- making the namespace has not changed the type of the partition
    have hfind : typeOf root namespaceName (.text partitionKey) = entries.find (.text partitionKey) := by
      rw [← htypes]
      unfold typeOf
      rw [hentries]
    split
    · rename_i entries' hentries'
      obtain rfl : entries = entries' := by
        rw [hentries] at hentries'
        exact Node.directory.inj hentries'
      split
      · exact .inl ⟨_, rfl, hsame⟩
      · -- what is there already is left as it is
        rename_i hdirectory _
        exact .inr (.inl ⟨rfl, hsame, .inl (hfind.trans hdirectory)⟩)
      · rename_i hlink _
        exact .inr (.inl ⟨rfl, hsame, .inr (hfind.trans hlink)⟩)
      · exact .inl ⟨_, rfl, hsame⟩
      · rename_i hfree _
        -- the directory is new
        refine .inr (.inr ⟨rfl, hfind.trans hfree, fun n name => ?_, fun n hn => ?_⟩)
        · rw [← htypes]
          exact typeOf_add hentries hfree
        · exact htaken n (update_other (by simp) hn)
    · exact .inl ⟨_, rfl, hsame⟩
    · exact .inl ⟨_, rfl, hsame⟩

theorem ensurePartition_eq {partitionKey : Text} (created : Except EsError Unit)
    (hn : validateSafeLabel "namespace" namespaceName = .ok ())
    (hk : validateSafeLabel "partition_key" partitionKey = .ok ()) :
    Partitions.ensurePartition namespaceName partitionKey created =
      created.map fun _ => ⟨namespaceName, partitionKey, hn, hk⟩ := by
  unfold Partitions.ensurePartition
  split
  · rename_i e he
    rw [hn] at he
    cases he
  · split
    · rename_i e he
      rw [hk] at he
      cases he
    · rfl

/-- `ensure_partition` fails, or returns the partition of the directory. -/
theorem ensurePartition_ends (root : Root) (namespaceName partitionKey : Text)
    (faults : Option String × Option String) :
    (∃ e root', ensurePartition namespaceName partitionKey faults root = (.error e, root') ∧
      SameEntries root root') ∨
    ∃ p, ensurePartition namespaceName partitionKey faults root =
        (.ok p, (createDirAll namespaceName partitionKey faults root).2) ∧
      p.namespaceName = namespaceName ∧ p.partitionKey = partitionKey ∧
      (createDirAll namespaceName partitionKey faults root).1 = .ok () := by
  unfold ensurePartition
  split
  · rename_i hn hk
    simp only [ensurePartition_eq _ hn hk]
    rcases createDirAll_ends root namespaceName partitionKey faults with
      ⟨e, he, hsame⟩ | ⟨hok, -⟩ | ⟨hok, -⟩
    · rw [he]
      exact .inl ⟨e, _, rfl, hsame⟩
    · rw [hok]
      exact .inr ⟨_, rfl, rfl, rfl, rfl⟩
    · rw [hok]
      exact .inr ⟨_, rfl, rfl, rfl, rfl⟩
  · rename_i hlabels
    unfold Partitions.ensurePartition
    split
    · exact .inl ⟨_, _, rfl, .refl root⟩
    · rename_i hn
      split
      · exact .inl ⟨_, _, rfl, .refl root⟩
      · rename_i hk
        exact (hlabels hn hk).elim

theorem stepped_ensurePartition (s : State) (partitionKey : Text) (faults : Option String × Option String) :
    Stepped (.ensurePartition namespaceName partitionKey faults) s
      (step (.ensurePartition namespaceName partitionKey faults) s) := by
  rcases ensurePartition_ends s.root namespaceName partitionKey faults with
    ⟨e, root', heq, hsame⟩ | ⟨p, heq, rfl, rfl, hok⟩
  · simp only [step, heq]
    exact .of_same hsame.types fun n hn => .inl (hsame.taken n hn)
  · simp only [step, heq]
    rcases createDirAll_ends s.root p.namespaceName p.partitionKey faults with
      ⟨e, he, -⟩ | ⟨-, hsame, hthere⟩ | ⟨-, hfree, htypes, htaken⟩
    · rw [hok] at he
      cases he
    · refine ⟨fun n name type h => (hsame.types n name).trans h,
        fun n name type h => .inl ((hsame.types n name).symm.trans h), .inr ⟨p, rfl, ?_⟩,
        fun n hn => .inl (hsame.taken n hn)⟩
      rw [hsame.types]
      exact hthere
    · refine ⟨fun n name type h => ?_, fun n name type h => ?_, .inr ⟨p, rfl, .inl ?_⟩,
        fun n hn => .inl (htaken n hn)⟩
      · show typeOf _ n name = some type
        rw [htypes, if_neg]
        · exact h
        · rintro ⟨rfl, rfl⟩
          rw [hfree] at h
          cases h
      · replace h : typeOf _ n name = some type := h
        rw [htypes] at h
        split at h
        · rename_i hnew
          cases h
          exact .inr (.inr ⟨rfl, p, List.mem_append_right _ List.mem_cons_self, hnew.1.symm, hnew.2⟩)
        · exact .inl h
      · show typeOf _ _ _ = some .directory
        rw [htypes, if_pos ⟨rfl, rfl⟩]

theorem stepped_put (s : State) (name : FileName) (type : FileType) :
    Stepped (.put namespaceName name type) s (step (.put namespaceName name type) s) := by
  show Stepped _ s { s with root := put namespaceName name type s.root }
  unfold put
  split
  · rename_i entries hentries
    split
    · rename_i hfree
      have hnone : typeOf s.root namespaceName name = none := by
        unfold typeOf
        rw [hentries]
        exact hfree
      refine ⟨fun n name' type' h => ?_, fun n name' type' h => ?_, .inl rfl,
        fun n hn => .inl (update_other (by simp) hn)⟩
      · show typeOf _ n name' = some type'
        rw [typeOf_add hentries, if_neg]
        · exact h
        · rintro ⟨rfl, rfl⟩
          rw [hnone] at h
          cases h
      · replace h : typeOf _ n name' = some type' := h
        rw [typeOf_add hentries] at h
        split at h
        · rename_i hnew
          obtain ⟨rfl, rfl⟩ := hnew
          cases h
          exact .inr (.inl rfl)
        · exact .inl h
    · exact .of_same (fun _ _ => rfl) fun _ => .inl
  · exact .of_same (fun _ _ => rfl) fun _ => .inl
  · exact .of_same (fun _ _ => rfl) fun _ => .inl

theorem stepped_take (s : State) (isDirectory : Bool) :
    Stepped (.take namespaceName isDirectory) s (step (.take namespaceName isDirectory) s) := by
  show Stepped _ s { s with root := take namespaceName isDirectory s.root }
  unfold take
  split
  · rename_i hmissing
    cases isDirectory with
    | true => exact .of_same (fun _ _ => typeOf_empty hmissing) fun _ hn => .inl (update_other (by simp) hn)
    | false =>
      refine .of_same (fun n name => ?_) fun n hn => ?_
      · unfold typeOf
        by_cases h : n = namespaceName
        · subst h
          simp [hmissing]
        · rw [Function.update_of_ne h]
      · by_cases h : n = namespaceName
        · exact .inr (h ▸ rfl)
        · rw [Function.update_of_ne h] at hn
          exact .inl hn
  · exact .of_same (fun _ _ => rfl) fun _ => .inl
  · exact .of_same (fun _ _ => rfl) fun _ => .inl

/-- **One operation**, by what it is. -/
theorem stepped (op : Op) (s : State) : Stepped op s (step op s) := by
  cases op with
  | ensureNamespace n fault =>
    exact .of_same sameEntries_ensureNamespace.types fun n hn => .inl (sameEntries_ensureNamespace.taken n hn)
  | ensurePartition n partitionKey faults => exact stepped_ensurePartition s partitionKey faults
  | put n name type => exact stepped_put s name type
  | take n isDirectory => exact stepped_take s isDirectory

end Steps

/-! ## The tree after a run -/

/-- Every entry has a reason, and every returned partition has an entry. -/
structure Inv (ops : List Op) (s : State) : Prop where
  origin : ∀ n name type, typeOf s.root n name = some type → Op.put n name type ∈ ops ∨
    type = .directory ∧ ∃ p ∈ s.returned, p.namespaceName = n ∧ name = .text p.partitionKey
  there : ∀ p ∈ s.returned,
    typeOf s.root p.namespaceName (.text p.partitionKey) = some .directory ∨
      typeOf s.root p.namespaceName (.text p.partitionKey) = some .linkToDirectory
  taken : ∀ n, s.root n = .other → Op.take n false ∈ ops

theorem Inv.step {ops : List Op} {s : State} (h : Inv ops s) (op : Op) :
    Inv (ops ++ [op]) (step op s) := by
  have hstep := stepped op s
  have hreturned : ∀ p ∈ s.returned, p ∈ (PartitionListing.step op s).returned := by
    intro p hp
    rcases hstep.returned with heq | ⟨q, heq, -⟩
    · rw [heq]
      exact hp
    · rw [heq]
      exact List.mem_append_left _ hp
  refine ⟨fun n name type ht => ?_, fun p hp => ?_, fun n hn => ?_⟩
  · rcases hstep.origin n name type ht with hold | rfl | hnew
    · rcases h.origin n name type hold with hput | ⟨rfl, p, hp, hname⟩
      · exact .inl (List.mem_append_left _ hput)
      · exact .inr ⟨rfl, p, hreturned p hp, hname⟩
    · exact .inl (List.mem_append_right _ List.mem_cons_self)
    · exact .inr hnew
  · have hold : p ∈ s.returned →
        typeOf (PartitionListing.step op s).root p.namespaceName (.text p.partitionKey) =
          some .directory ∨
        typeOf (PartitionListing.step op s).root p.namespaceName (.text p.partitionKey) =
          some .linkToDirectory :=
      fun hp => (h.there p hp).imp (hstep.keeps _ _ _) (hstep.keeps _ _ _)
    rcases hstep.returned with heq | ⟨q, heq, hq⟩
    · rw [heq] at hp
      exact hold hp
    · rw [heq] at hp
      rcases List.mem_append.1 hp with hp | hp
      · exact hold hp
      · rw [List.mem_singleton.1 hp]
        exact hq
  · rcases hstep.taken n hn with hold | rfl
    · exact List.mem_append_left _ (h.taken n hold)
    · exact List.mem_append_right _ List.mem_cons_self

/-- By induction on the operations. -/
theorem inv_run (ops : List Op) : Inv ops (run ops) := by
  induction ops using List.reverseRecOn with
  | nil =>
    exact ⟨fun _ _ _ h => (by cases h), fun _ h => absurd h List.not_mem_nil, fun _ h => (by cases h)⟩
  | append_singleton ops op ih =>
    show Inv (ops ++ [op]) (List.foldl _ _ (ops ++ [op]))
    rw [List.foldl_append]
    exact ih.step op

/-! ## The listing -/

section Listing

variable {n : Text} {hn : validateSafeLabel "namespace" n = .ok ()} {fault : Nat → Option String}
  {list : List (FileName × FileType)} {l : List PartitionDescriptor}

theorem descriptorOf_eq_some {entry : FileName × FileType} {p : PartitionDescriptor} :
    descriptorOf n hn entry = some p ↔
      p.namespaceName = n ∧ entry = (.text p.partitionKey, .directory) := by
  unfold descriptorOf
  constructor
  · intro h
    split at h
    · split at h
      · cases h
        exact ⟨rfl, rfl⟩
      · cases h
    · cases h
  · rintro ⟨rfl, rfl⟩
    exact dif_pos p.safeKey

theorem collect_eq (i : Nat) (h : collect n hn fault i list = .ok l) :
    l = list.filterMap (descriptorOf n hn) := by
  induction list generalizing i l with
  | nil =>
    unfold collect at h
    split at h
    · cases h
    · cases h
      rfl
  | cons entry list ih =>
    unfold collect at h
    split at h
    · cases h
    · cases hrest : collect n hn fault (i + 1) list with
      | error e =>
        rw [hrest] at h
        cases h
      | ok rest =>
        rw [hrest] at h
        cases h
        cases hentry : descriptorOf n hn entry with
        | none => simp [hentry, ← ih (i + 1) hrest]
        | some p => simp [hentry, ← ih (i + 1) hrest]

theorem collect_ok (hn : validateSafeLabel "namespace" n = .ok ()) (list : List (FileName × FileType))
    (i : Nat) : ∃ l, collect n hn (fun _ => none) i list = .ok l := by
  induction list generalizing i with
  | nil => exact ⟨[], rfl⟩
  | cons entry list ih =>
    obtain ⟨l, hl⟩ := ih (i + 1)
    unfold collect
    rw [hl]
    exact ⟨_, rfl⟩

instance : Std.Total keyLe := ⟨fun p q => le_total p.partitionKey q.partitionKey⟩

instance : IsTrans PartitionDescriptor keyLe := ⟨fun _ _ _ hpq hqr => le_trans hpq hqr⟩

/-- The keys of the listed partitions go up, and they are the names of the directories. -/
theorem listPartitions_ok {env : ListEnv} {root : Root} (h : listPartitions n env root = .ok l) :
    (l.Pairwise fun p q => p.partitionKey < q.partitionKey) ∧
      ∀ p, p ∈ l ↔ p.namespaceName = n ∧ typeOf root n (.text p.partitionKey) = some .directory := by
  unfold listPartitions at h
  split at h
  · cases h
  · rename_i hn
    split at h
    · cases h
    · rename_i hmissing
      cases h
      -- the namespace is not there: no partitions
      refine ⟨.nil, fun p => ?_⟩
      unfold typeOf
      rw [hmissing]
      simp
    · cases h
    · rename_i entries _ hentries
      cases hcollect : collect n hn env.entry 0 (env.order entries.list) with
      | error e =>
        rw [hcollect] at h
        cases h
      | ok descriptors =>
        rw [hcollect] at h
        cases h
        have hperm := List.perm_insertionSort keyLe descriptors
        -- an entry is listed if it is a directory with a label for a name
        have hmem : ∀ p, p ∈ descriptors ↔
            p.namespaceName = n ∧ (FileName.text p.partitionKey, FileType.directory) ∈ entries.list := by
          intro p
          rw [collect_eq 0 hcollect, List.mem_filterMap]
          simp only [descriptorOf_eq_some, (env.perm entries.list).mem_iff]
          constructor
          · rintro ⟨entry, hentry, hname, rfl⟩
            exact ⟨hname, hentry⟩
          · rintro ⟨hname, hentry⟩
            exact ⟨_, hentry, hname, rfl⟩
        -- two descriptors with one key would be one entry
        have hnodup : (descriptors.map PartitionDescriptor.partitionKey).Nodup := by
          have hlist : (env.order entries.list).Nodup :=
            (env.perm entries.list).nodup_iff.2 (List.Nodup.of_map _ entries.nodup)
          have hdescriptors : descriptors.Nodup := by
            rw [collect_eq 0 hcollect]
            refine hlist.filterMap fun entry entry' p hp hp' => ?_
            rw [(descriptorOf_eq_some.1 hp).2, (descriptorOf_eq_some.1 hp').2]
          refine hdescriptors.map_on fun p hp q hq hkey => ?_
          exact Partitions.PartitionDescriptor.ext_labels
            (((hmem p).1 hp).1.trans ((hmem q).1 hq).1.symm) hkey
        refine ⟨Tiles.pairwise_lt_insertionSort (fun _ _ => Iff.rfl) hnodup, fun p => ?_⟩
        rw [hperm.mem_iff, hmem, ← Entries.find_eq_some]
        unfold typeOf
        rw [hentries]

end Listing

/-- What `list_partitions` returns after the operations `ops`. -/
structure Lists (ops : List Op) (n : Text) (l : List PartitionDescriptor) : Prop where
  sorted : l.Pairwise fun p q => p.partitionKey < q.partitionKey
  within : ∀ p ∈ l, p.namespaceName = n
  /-- `ensure_partition` has returned it, or others have made its directory. -/
  made : ∀ p ∈ l, p ∈ (run ops).returned ∨ Op.put n (.text p.partitionKey) .directory ∈ ops
  /-- A link is not listed, although `ensure_partition` accepts it. -/
  complete : ∀ p ∈ (run ops).returned, p.namespaceName = n →
    typeOf (run ops).root n (.text p.partitionKey) ≠ some .linkToDirectory → p ∈ l

/-- What the listings of a namespace are to guarantee. -/
structure Listed (ops : List Op) (n : Text) : Prop where
  lists : ∀ env l, listPartitions n env (run ops).root = .ok l → Lists ops n l
  /-- The order of the directory does not matter. -/
  unique : ∀ env env' l l', listPartitions n env (run ops).root = .ok l →
    listPartitions n env' (run ops).root = .ok l' → l = l'
  succeeds : ∀ env : ListEnv, env.readDir = none → (∀ i, env.entry i = none) → SafeLabel n →
    Op.take n false ∉ ops → ∃ l, listPartitions n env (run ops).root = .ok l

/-- **The partitions are listed**, sorted and each once, after any calls with any failures and whatever
others put below the root. -/
theorem partitions_listed (ops : List Op) (n : Text) : Listed ops n := by
  have hinv := inv_run ops
  refine ⟨fun env l hl => ?_, fun env env' l l' hl hl' => ?_, fun env hread hentry hsafe htaken => ?_⟩
  · -- sorted, and no more and no less than the directories there
    obtain ⟨hsorted, hmem⟩ := listPartitions_ok hl
    refine ⟨hsorted, fun p hp => ((hmem p).1 hp).1, fun p hp => ?_, fun p hp hname hlink => ?_⟩
    · obtain ⟨rfl, htype⟩ := (hmem p).1 hp
      rcases hinv.origin _ _ _ htype with hput | ⟨-, q, hq, hname, hkey⟩
      · exact .inr hput
      · have hpq : q = p := Partitions.PartitionDescriptor.ext_labels hname (FileName.text.inj hkey).symm
        exact .inl (hpq ▸ hq)
    · refine (hmem p).2 ⟨hname, ?_⟩
      rcases hinv.there p hp with hdirectory | hlinked
      · exact hname ▸ hdirectory
      · exact absurd (hname ▸ hlinked) hlink
  · -- the order in which the directory was read does not matter
    obtain ⟨hsorted, hmem⟩ := listPartitions_ok hl
    obtain ⟨hsorted', hmem'⟩ := listPartitions_ok hl'
    have hnodup : ∀ {l : List PartitionDescriptor},
        (l.Pairwise fun p q => p.partitionKey < q.partitionKey) → l.Nodup :=
      fun h => h.imp fun hlt heq => absurd (heq ▸ hlt) (lt_irrefl _)
    refine Tiles.eq_of_perm_of_pairwise_lt PartitionDescriptor.partitionKey ?_ hsorted hsorted'
    exact (List.perm_ext_iff_of_nodup (hnodup hsorted) (hnodup hsorted')).2 fun p =>
      (hmem p).trans (hmem' p).symm
  · -- a readable directory of a safe name is listed
    have hlabel : validateSafeLabel "namespace" n = .ok () := validateSafeLabel_iff.2 hsafe
    obtain ⟨readDir, order, perm, entry⟩ := env
    obtain rfl : readDir = none := hread
    obtain rfl : entry = fun _ => none := funext hentry
    unfold listPartitions
    split
    · rename_i e he
      rw [hlabel] at he
      cases he
    · rename_i hn
      cases hroot : (run ops).root n with
      | missing => exact ⟨[], rfl⟩
      | other => exact absurd (hinv.taken n hroot) htaken
      | directory entries =>
        obtain ⟨l, hl⟩ := collect_ok hn (order entries.list) 0
        simp only [hl]
        exact ⟨_, rfl⟩

end Events.PartitionListing
