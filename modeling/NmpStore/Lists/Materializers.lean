import NmpStore.Base
import NmpStore.Lib.Except
import NmpStore.Lib.KeyedEdits

/-! # The materializers of the follow list, the group list and the bookmarks

Each applies its stored operations to the tags of the list's event. What serde writes is taken as the value written,
what it reads as its answer; the functions of the nostr library that the rows depend on are parameters.
-/

namespace NmpStore.Lists

open KeyedEdits

abbrev Tag := List String

structure Event where
  kind : Nat
  tags : List Tag
  content : String

structure Materializer (Encoded Operation Item : Type) where
  kind : Nat
  wrongKind : String
  encode : Operation → Encoded
  decode : Encoded → Except String Operation
  item : Operation → Item
  /-- What two items share that are one entry of the list. -/
  identity : Item → Item
  found : Tag → Item → Bool
  /-- The tag that an addition writes; a removal has none. -/
  added : Operation → Option (Except String Tag)

namespace Materializer

variable {Encoded Operation Item : Type} (M : Materializer Encoded Operation Item)

def apply (tags : List Tag) (op : Operation) : Except String (List Tag) :=
  match M.added op with
  | some tag => if tags.any (M.found · (M.item op)) then .ok tags else return tags ++ [← tag]
  | none => .ok (tags.filter (!M.found · (M.item op)))

def materialize (source : Event) (ops : List Encoded) : Except String Event :=
  if source.kind ≠ M.kind then .error M.wrongKind
  else return ⟨M.kind, ← ops.foldlM (fun tags bytes => do M.apply tags (← M.decode bytes)) source.tags, source.content⟩

section Meaning

variable [DecidableEq Item]

def last (ops : List Operation) (item : Item) : Option Operation :=
  (ops.filter fun op => M.identity (M.item op) = M.identity item).getLast?

def unnamed (ops : List Operation) (tag : Tag) : Bool := ops.all fun op => !M.found tag (M.item op)

/-- The edits mean what they say, also when they are replayed. -/
structure Meant (source : Event) (ops : List Operation) (result : Event) : Prop where
  listed : ∀ item, (∃ tag ∈ result.tags, M.found tag item) ↔
    (∃ op, M.last ops item = some op ∧ (M.added op).isSome) ∨
      M.last ops item = none ∧ ∃ tag ∈ source.tags, M.found tag item
  others : result.tags.filter (M.unnamed ops) = source.tags.filter (M.unnamed ops)
  content : result.content = source.content
  once : ∀ item, (∀ tag ∈ source.tags, !M.found tag item) → (result.tags.filter (M.found · item)).length ≤ 1
  replay : ∃ again, M.materialize result (ops.map M.encode) = .ok again ∧ again.tags.Perm result.tags

/-- Over any source, encodable operations on the items of `S` mean what they say. -/
def Sure (S : Item → Prop) : Prop :=
  ∀ source ops, source.kind = M.kind → (∀ op ∈ ops, M.decode (M.encode op) = .ok op ∧ S (M.item op)) →
    ∃ result, M.materialize source (ops.map M.encode) = .ok result ∧ M.Meant source ops result

end Meaning

/-- A tag names at most one entry, and names it by every item that stands for it. -/
def Exact : Prop := ∀ tag a b, M.found tag a → (M.found tag b ↔ M.identity a = M.identity b)

/-- An addition writes a tag that names its item. -/
def Writes (op : Operation) : Prop := ∀ tag, M.added op = some tag → ∃ t, tag = .ok t ∧ M.found t (M.item op)

open Classical in
noncomputable def keyOf (tag : Tag) : Option Item :=
  if h : ∃ item, M.found tag item then some (M.identity h.choose) else none

def edit (op : Operation) : Edit Tag Item :=
  match M.added op with
  | some (.ok tag) => .add (M.identity (M.item op)) tag
  | _ => .remove (M.identity (M.item op))

variable {M} {ops : List Operation} {source : Event}

theorem Writes.cases (h : M.Writes op) : (∃ tag, M.added op = some (.ok tag) ∧ M.found tag (M.item op) ∧
    M.edit op = .add (M.identity (M.item op)) tag) ∨ M.added op = none ∧ M.edit op = .remove (M.identity (M.item op)) := by
  cases ha : M.added op with
  | none => exact .inr ⟨rfl, by simp [edit, ha]⟩
  | some tag =>
    obtain ⟨t, rfl, ht⟩ := h tag ha
    exact .inl ⟨t, rfl, ht, by simp [edit, ha]⟩

theorem edit_key (op : Operation) : (M.edit op).key = M.identity (M.item op) := by
  unfold edit
  split <;> rfl

namespace Exact

variable (K : M.Exact)
include K

theorem found_iff (tag : Tag) (it : Item) : M.found tag it ↔ M.keyOf tag = some (M.identity it) := by
  unfold keyOf
  split
  · next h => rw [K tag _ it h.choose_spec, Option.some.injEq]
  · next h => exact ⟨fun hf => (h ⟨it, hf⟩).elim, nofun⟩

variable [DecidableEq Item]

theorem found_eq (tag : Tag) (it : Item) : M.found tag it = decide (M.keyOf tag = some (M.identity it)) := by
  rw [Bool.eq_iff_iff, K.found_iff, decide_eq_true_eq]

theorem apply_eq (h : M.Writes op) (tag : List Tag) : M.apply tag op = .ok (step M.keyOf tag (M.edit op)) := by
  rcases h.cases with ⟨ta, ha, -, he⟩ | ⟨ha, he⟩
  · simp only [apply, ha, he, step, K.found_eq]
    split <;> rfl
  · simp [apply, ha, he, step, K.found_eq]

theorem materialize_eq (hk : source.kind = M.kind)
    (h : ∀ op ∈ ops, M.decode (M.encode op) = .ok op ∧ M.Writes op) : M.materialize source (ops.map M.encode) =
      .ok ⟨M.kind, run M.keyOf source.tags (ops.map M.edit), source.content⟩ := by
  have hf : ∀ tag, (ops.map M.encode).foldlM (fun tag bt => do M.apply tag (← M.decode bt)) tag =
      .ok (run M.keyOf tag (ops.map M.edit)) := by
    induction ops with
    | nil => exact fun _ => rfl
    | cons op ops ih =>
      intro tag
      rw [map_cons, foldlM_cons, (h op mem_cons_self).1]
      exact (congrArg (· >>= _) (K.apply_eq (h op mem_cons_self).2 tag)).trans
        (ih (fun op ho => h op (.tail _ ho)) _)
  rw [materialize, if_neg (not_not.mpr hk), hf]
  rfl

theorem exists_found (tag : List Tag) (it : Item) :
    (∃ ta ∈ tag, M.found ta it) ↔ slot M.keyOf (some (M.identity it)) tag ≠ [] := by
  simp [slot, K.found_iff]

theorem meant (hk : source.kind = M.kind) (h : ∀ op ∈ ops, M.decode (M.encode op) = .ok op ∧ M.Writes op) :
    ∃ rs, M.materialize source (ops.map M.encode) = .ok rs ∧ M.Meant source ops rs := by
  have hs : ∀ e ∈ ops.map M.edit, e.Sound M.keyOf := by
    intro e he
    obtain ⟨op, ho, rfl⟩ := mem_map.mp he
    rcases (h op ho).2.cases with ⟨tag, -, ht, he⟩ | ⟨-, he⟩
    · rw [he]
      exact (K.found_iff _ _).mp ht
    · rw [he]
      trivial
  have hl : ∀ it, ((ops.map M.edit).filter (·.key = M.identity it)).getLast? = (M.last ops it).map M.edit := by
    intro it
    rw [List.filter_map, List.getLast?_map, last]
    simp only [Function.comp_def, edit_key]
  have hA : ∀ it op, M.last ops it = some op → (M.edit op).adds = (M.added op).isSome := by
    intro it op hO
    have hm : op ∈ ops := List.mem_of_mem_filter (List.mem_of_getLast? hO)
    rcases (h op hm).2.cases with ⟨tag, ha, -, he⟩ | ⟨ha, he⟩ <;> rw [ha, he] <;> rfl
  refine ⟨_, K.materialize_eq hk h, fun it => ?_, ?_, rfl, fun it hN => ?_, _, K.materialize_eq rfl h,
    run_replay_perm hs⟩
  · rw [K.exists_found, K.exists_found, slot_run hs, slots_ne_nil, hl]
    cases hO : M.last ops it with
    | none => simp
    | some op => simp [hA it op hO]
  · refine run_filter _ hs fun e he tag hT => ?_
    obtain ⟨op, hO, rfl⟩ := mem_map.mp he
    rw [edit_key, ← K.found_iff] at hT
    exact List.all_eq_false.mpr ⟨op, hO, by simp [hT]⟩
  · have hn : slot M.keyOf (some (M.identity it)) source.tags = [] := by
      by_contra hc
      obtain ⟨tag, hT, hf⟩ := (K.exists_found ..).mpr hc
      simpa [hf] using hN tag hT
    simp only [K.found_eq]
    change (slot M.keyOf (some (M.identity it)) _).length ≤ 1
    rw [slot_run hs, hn]
    exact slots_length_le_one (Nat.zero_le 1)

end Exact

end Materializer

def orError (refusal : String) : Option α → Except String α
  | some a => .ok a
  | none => .error refusal

@[simp]
theorem orError_ok : orError r o = .ok a ↔ o = some a := by
  cases o <;> simp [orError]

/-- What serde writes for an operation. -/
structure WireOperation (Action : Type) where
  version : Nat
  action : Action

def WireOperation.read (malformed unsupported : String) : Except String (WireOperation α) → Except String α
  | .error e => .error (malformed ++ e)
  | .ok wire => if wire.version ≠ 1 then .error unsupported else .ok wire.action

inductive FollowChange where
  | follow
  | unfollow

inductive GroupListOperation (Url : Type) where
  | addGroup (groupId : String) (hostRelay : Url) (name : Option String)
  | removeGroup (groupId : String) (hostRelay : Url)
  | addRelay (relay : Url)
  | removeRelay (relay : Url)

def GroupListOperation.mapM (f : α → Except String β) : GroupListOperation α → Except String (GroupListOperation β)
  | addGroup id relay name => return addGroup id (← f relay) name
  | removeGroup id relay => return removeGroup id (← f relay)
  | addRelay relay => return addRelay (← f relay)
  | removeRelay relay => return removeRelay (← f relay)

inductive GroupListItem (Url : Type) where
  | group (groupId : String) (hostRelay : Url)
  | relay (relay : Url)
  deriving DecidableEq

inductive BookmarkedItem (Id Url Coordinate : Type) where
  | event (id : Id) (relayHint : Option Url)
  | address (coordinate : Coordinate)
  | hashtag (value : String)
  | url (value : String)
  deriving DecidableEq

abbrev WireItem := BookmarkedItem String String String

inductive BookmarkOperation (Item : Type) where
  | add (item : Item)
  | remove (item : Item)

def BookmarkOperation.item : BookmarkOperation α → α
  | add item => item
  | remove item => item

def BookmarkOperation.mapM (f : α → Except String β) : BookmarkOperation α → Except String (BookmarkOperation β)
  | add item => return add (← f item)
  | remove item => return remove (← f item)

/-- The functions of the nostr library that read and write the cells of a row; an id is a public key or an event's. -/
structure Nostr (Id Url Coordinate : Type) where
  asBytes : Id → Bytes
  fromSlice : Bytes → Option Id
  toHex : Id → String
  fromHex : String → Option Id
  fromHex_toHex : ∀ id, fromHex (toHex id) = some id
  parseUrl : String → Option Url
  urlString : Url → String
  urlStr : Url → String
  parse_urlStr : ∀ url, parseUrl (urlStr url) = parseUrl (urlString url)
  parseCoordinate : String → Option Coordinate
  coordinateString : Coordinate → String
  /-- The value that `Tag::hashtag` writes. -/
  hashtag : String → String

def parseTag (refusal : String) (row : Tag) : Except String Tag := if row = [] then .error refusal else .ok row

namespace Nostr

variable {Id Url Coordinate : Type} (N : Nostr Id Url Coordinate)

theorem toHex_inj {a b : Id} : N.toHex a = N.toHex b ↔ a = b :=
  ⟨fun h => Option.some.inj (by rw [← N.fromHex_toHex, h, N.fromHex_toHex]), congrArg _⟩

def encodeFollowOperation (op : Id × FollowChange) : Bytes :=
  1 :: (match op.2 with | .follow => 1 | .unfollow => 0) :: N.asBytes op.1

def decodeFollowOperation (bytes : Bytes) : Except String (Id × FollowChange) :=
  if bytes.length ≠ 34 then .error "NIP-02 operation has the wrong length"
  else if bytes[0]? ≠ some 1 then .error "NIP-02 operation has an unsupported version"
  else do
    let change ← match (bytes[1]? : Option UInt8) with
      | some 0 => .ok FollowChange.unfollow
      | some 1 => .ok .follow
      | _ => .error "NIP-02 operation has an invalid change"
    return (← orError "NIP-02 operation has an invalid public key" (N.fromSlice (bytes.drop 2)), change)

def follows : Materializer Bytes (Id × FollowChange) Id where
  kind := 3
  wrongKind := "NIP-02 materialization source is not a contact list"
  encode := N.encodeFollowOperation
  decode := N.decodeFollowOperation
  item := Prod.fst
  identity := id
  found tag target := tag[0]? = some "p" ∧ tag[1]? = some (N.toHex target)
  added op := match op.2 with
    | .follow => some (.ok ["p", N.toHex op.1])
    | .unfollow => none

theorem follows_exact : N.follows.Exact := by
  intro tag a b h
  simp_all [follows, N.toHex_inj]

theorem follows_writes (op : Id × FollowChange) : N.follows.Writes op := by
  obtain ⟨tr, ch⟩ := op
  cases ch with
  | follow => simp [Materializer.Writes, follows]
  | unfollow => nofun

section GroupList

variable [DecidableEq Url]

def groupList : Materializer (Except String (WireOperation (GroupListOperation String))) (GroupListOperation Url)
    (GroupListItem Url) where
  kind := 10009
  wrongKind := "NIP-29 group-list materialization source is not a group list"
  encode op := return ⟨1, ← op.mapM fun url => .ok (N.urlString url)⟩
  decode wire := do
    let action ← WireOperation.read "NIP-29 group-list operation is malformed: "
      "NIP-29 group-list operation has an unsupported version" wire
    action.mapM fun relay => orError "NIP-29 group-list operation has an invalid relay URL" (N.parseUrl relay)
  item
    | .addGroup id relay _ => .group id relay
    | .removeGroup id relay => .group id relay
    | .addRelay relay => .relay relay
    | .removeRelay relay => .relay relay
  identity := id
  found tag
    | .group id relay => tag[0]? = some "group" ∧ tag[1]? = some id ∧ tag[2]?.bind N.parseUrl = some relay
    | .relay relay => tag[0]? = some "r" ∧ tag[1]?.bind N.parseUrl = some relay
  added
    | .addGroup id relay name => some <| parseTag "NIP-29 group-list operation produced an invalid tag"
      (["group", id, N.urlString relay] ++ name.toList)
    | .addRelay relay =>
      some <| parseTag "NIP-29 group-list operation produced an invalid relay tag" ["r", N.urlStr relay]
    | _ => none

theorem groupList_exact : N.groupList.Exact := by
  intro tag a b h
  cases a <;> cases b <;> simp_all [groupList]

theorem groupList_writes {op : GroupListOperation Url} (h : N.groupList.decode (N.groupList.encode op) = .ok op) :
    N.groupList.Writes op := by
  cases op with
  | addGroup id rl nm =>
    simp_all [Materializer.Writes, groupList, GroupListOperation.mapM, WireOperation.read, parseTag]
  | removeGroup id rl => nofun
  | addRelay rl =>
    simp_all [Materializer.Writes, groupList, GroupListOperation.mapM, WireOperation.read, parseTag, N.parse_urlStr]
  | removeRelay rl => nofun

end GroupList

def itemToWire : BookmarkedItem Id Url Coordinate → WireItem
  | .event id hint => .event (N.toHex id) (hint.map N.urlString)
  | .address coordinate => .address (N.coordinateString coordinate)
  | .hashtag value => .hashtag value
  | .url value => .url value

def wireToItem : WireItem → Except String (BookmarkedItem Id Url Coordinate)
  | .event id hint => do
    let id ← orError "bookmarks operation has an invalid event id" (N.fromHex id)
    return .event id (← hint.mapM fun hint => orError "bookmarks operation has an invalid relay hint" (N.parseUrl hint))
  | .address coordinate =>
    return .address (← orError "bookmarks operation has an invalid coordinate" (N.parseCoordinate coordinate))
  | .hashtag value => .ok (.hashtag value)
  | .url value => .ok (.url value)

def itemToTag : BookmarkedItem Id Url Coordinate → Tag
  | .event id hint => ["e", N.toHex id] ++ (hint.map N.urlStr).toList
  | .address coordinate => ["a", N.coordinateString coordinate]
  | .hashtag value => ["t", N.hashtag value]
  | .url value => ["r", value]

variable [DecidableEq Coordinate]

def tagMatchesItem (tag : Tag) : BookmarkedItem Id Url Coordinate → Bool
  | .event id _ => tag[0]? = some "e" ∧ tag[1]? = some (N.toHex id)
  | .address coordinate => tag[0]? = some "a" ∧ tag[1]?.bind N.parseCoordinate = some coordinate
  | .hashtag value => tag[0]? = some "t" ∧ tag[1]? = some value
  | .url value => tag[0]? = some "r" ∧ tag[1]? = some value

def bookmarks : Materializer (Except String (WireOperation (BookmarkOperation (WireItem))))
    (BookmarkOperation (BookmarkedItem Id Url Coordinate)) (BookmarkedItem Id Url Coordinate) where
  kind := 10003
  wrongKind := "bookmarks materialization source is not a bookmarks list"
  encode op := return ⟨1, ← op.mapM fun item => .ok (N.itemToWire item)⟩
  decode wire := do
    let action ← WireOperation.read "bookmarks operation is malformed: " "bookmarks operation has an unsupported version" wire
    action.mapM N.wireToItem
  item := BookmarkOperation.item
  identity
    | .event id _ => .event id none
    | item => item
  found := N.tagMatchesItem
  added
    | .add item => some (.ok (N.itemToTag item))
    | .remove _ => none

theorem bookmarks_exact : N.bookmarks.Exact := by
  intro tag a b h
  cases a <;> cases b <;> simp_all [bookmarks, tagMatchesItem, N.toHex_inj]

theorem bookmarks_writes {op : BookmarkOperation (BookmarkedItem Id Url Coordinate)}
    (h : N.bookmarks.decode (N.bookmarks.encode op) = .ok op) (hT : ∀ v, op.item = .hashtag v → N.hashtag v = v) :
    N.bookmarks.Writes op := by
  cases op with
  | add it =>
    cases it <;> simp_all [Materializer.Writes, bookmarks, BookmarkOperation.mapM, BookmarkOperation.item,
      WireOperation.read, itemToWire, wireToItem, itemToTag, tagMatchesItem]
  | remove it => nofun

variable [DecidableEq Id] [DecidableEq Url]

/-- Edits of follows and of groups do what they mean, and those of bookmarks just if no hashtag changes when it is stored. -/
theorem list_edits_iff (S : BookmarkedItem Id Url Coordinate → Prop) :
    N.follows.Sure (fun _ => True) ∧ N.groupList.Sure (fun _ => True) ∧
      (N.bookmarks.Sure S ↔ ∀ v, S (.hashtag v) → N.hashtag v = v) := by
  refine ⟨fun source ops hk h => N.follows_exact.meant hk fun op ho => ⟨(h op ho).1, N.follows_writes op⟩,
    fun source ops hk h => N.groupList_exact.meant hk fun op ho => ⟨(h op ho).1, N.groupList_writes (h op ho).1⟩,
    fun hs v hv => ?_, fun hT source ops hk h => N.bookmarks_exact.meant hk fun op ho =>
      ⟨(h op ho).1, N.bookmarks_writes (h op ho).1 fun v hv => hT v (hv ▸ (h op ho).2)⟩⟩
  -- one addition to the empty list writes one row, which has to name the hashtag
  obtain ⟨rsl, hr, hm⟩ := hs ⟨10003, [], ""⟩ [.add (.hashtag v)] rfl (by simpa using ⟨rfl, hv⟩)
  have ht : rsl.tags = [["t", N.hashtag v]] := by
    cases hr
    rfl
  have hl := (hm.listed (.hashtag v)).mpr (.inl ⟨.add (.hashtag v),
    by simp [Materializer.last, bookmarks, BookmarkOperation.item], rfl⟩)
  simpa [ht, bookmarks, tagMatchesItem] using hl

/-- Texts stand for themselves, and hashtags are written in lower case. -/
def plain : Nostr String String String where
  asBytes text := text.toUTF8.toList
  fromSlice bytes := String.fromUTF8? bytes.toByteArray
  toHex := id
  fromHex := some
  fromHex_toHex _ := rfl
  parseUrl := some
  urlString := id
  urlStr := id
  parse_urlStr _ := rfl
  parseCoordinate := some
  coordinateString := id
  hashtag text := String.ofList (text.toList.map Char.toLower)

theorem list_edits_lower : plain.bookmarks.Sure (· = .hashtag "bitcoin") :=
  (plain.list_edits_iff _).2.2.mpr fun v hv => by
    cases hv
    decide

/-- The added hashtag is not found again, so that the replay adds it once more. -/
theorem capital_hashtag_is_lost :
    let ops : List (BookmarkOperation (WireItem)) := [.add (.hashtag "Bitcoin")]
    let once : Event := ⟨10003, [["t", "bitcoin"]], ""⟩
    (∀ op ∈ ops, plain.bookmarks.decode (plain.bookmarks.encode op) = .ok op) ∧
    plain.bookmarks.materialize ⟨10003, [], ""⟩ (ops.map plain.bookmarks.encode) = .ok once ∧
    (∀ tag ∈ once.tags, plain.bookmarks.found tag (.hashtag "Bitcoin") = false) ∧
    plain.bookmarks.materialize once (ops.map plain.bookmarks.encode) =
      .ok ⟨10003, [["t", "bitcoin"], ["t", "bitcoin"]], ""⟩ := by
  refine ⟨?_, rfl, by decide, rfl⟩
  simp
  rfl

end Nostr

end NmpStore.Lists
