import NmpStore.Base

/-! # The context of the Markdown reader

The reader keeps one link and one mark for list items; the containers that are open form a stack.
-/

namespace NmpStore.Content

inductive BlockKind where
  | paragraph
  | heading (level : Nat)
  | quote (depth : Nat)
  | listItem (ordered : Bool) (ordinal : Option Nat) (depth : Nat)
  | code (language : Option String)
  | thematicBreak
  deriving DecidableEq

inductive InlineNode where
  | text (text : String)
  | link (destination label : String)
  | reference (text : String)
  | hashtag (tag : String)
  | softBreak
  | hardBreak
  deriving DecidableEq

/-- The containers that the reader heeds; the others are one case. -/
inductive Tag where
  | paragraph
  | heading (level : Nat)
  | blockQuote
  | codeBlock (language : Option String)
  | list (start : Option Nat)
  | item
  | link (destination : String)
  | image (destination : String)
  | plain
  deriving DecidableEq

inductive MarkdownEvent where
  | start (tag : Tag)
  | stop (tag : Tag)
  | text (text : String)
  | code (code : String)
  | softBreak
  | hardBreak
  | rule
  | html (html : String)
  | footnoteReference (label : String)
  | taskListMarker (checked : Bool)
  | math (value : String)
  deriving DecidableEq

structure MarkdownState where
  blocks : List (BlockKind × List InlineNode) := []
  current : Option (BlockKind × List InlineNode) := none
  activeLink : Option String := none
  quoteDepth : Nat := 0
  /-- The open lists, the innermost first: whether each is ordered and its next number. -/
  lists : List (Bool × Option Nat) := []
  inItem : Bool := false
  codeLanguage : Option String := none

namespace MarkdownState

variable (s : MarkdownState)

def contextualKind : BlockKind :=
  match s.codeLanguage with
  | some language => .code (if language = "" then none else some language)
  | none =>
    if s.inItem then
      let list := s.lists.head?.getD (false, none)
      .listItem list.1 list.2 (min s.lists.length 255)
    else if s.quoteDepth > 0 then .quote s.quoteDepth
    else .paragraph

def begin (kind : BlockKind) : MarkdownState :=
  if s.current.isNone then { s with current := some (kind, []) } else s

def push (node : InlineNode) : MarkdownState :=
  { s with current := s.current.map fun block => (block.1, block.2 ++ [node]) }

def flush : MarkdownState :=
  match s.current with
  | none => s
  | some block =>
    if block.2 = [] then { s with current := none } else { s with current := none, blocks := s.blocks ++ [block] }

def start : Tag → MarkdownState
  | .paragraph => s.begin s.contextualKind
  | .heading level => s.flush.begin (.heading level)
  | .blockQuote => { s with quoteDepth := min (s.quoteDepth + 1) 255 }
  | .codeBlock language => { s.flush with codeLanguage := some (language.getD "") }.begin (.code language)
  | .list start => { s with lists := (start.isSome, start) :: s.lists }
  | .item =>
    let s := { s.flush with inItem := true }
    s.begin s.contextualKind
  | .link destination | .image destination => { s with activeLink := some destination }
  | .plain => s

def finishItem : List (Bool × Option Nat) → List (Bool × Option Nat)
  | (ordered, some next) :: lists => (ordered, some ((next + 1) % 2 ^ 64)) :: lists
  | lists => lists

def stop : Tag → MarkdownState
  | .paragraph | .heading _ => s.flush
  | .blockQuote => { s with quoteDepth := s.quoteDepth - 1 }
  | .codeBlock _ => { s.flush with codeLanguage := none }
  | .list _ => { s.flush with lists := s.flush.lists.tail }
  | .item => { s.flush with inItem := false, lists := finishItem s.flush.lists }
  | .link _ | .image _ => { s with activeLink := none }
  | .plain => s

def rule : MarkdownState := { s.flush with blocks := s.flush.blocks ++ [(.thematicBreak, [])] }

def shown (tokenizeInline : String → List InlineNode) : MarkdownEvent → List InlineNode
  | .text text =>
    if s.codeLanguage.isSome then [.text text]
    else match s.activeLink with
      | some destination => [.link destination text]
      | none => tokenizeInline text
  | .code text | .html text | .math text => [.text text]
  | .softBreak => [.softBreak]
  | .hardBreak => [.hardBreak]
  | .footnoteReference label => [.text ("[^" ++ label ++ "]")]
  | .taskListMarker checked => [.text (if checked then "☑ " else "☐ ")]
  | .start _ | .stop _ | .rule => []

def consume (tokenizeInline : String → List InlineNode) : MarkdownEvent → MarkdownState
  | .start tag => s.start tag
  | .stop tag => s.stop tag
  | .rule => s.rule
  | event => (s.shown tokenizeInline event).foldl push (s.begin s.contextualKind)

/-- The event begins a block of this kind: none is open, or it closes the one that is. -/
def Begins (tokenizeInline : String → List InlineNode) (event : MarkdownEvent) (kind : BlockKind) : Prop :=
  (s.current = none ∨ event = .start .item) ∧ ∃ nodes, (s.consume tokenizeInline event).current = some (kind, nodes)

end MarkdownState

/-- The open containers, the innermost first. A link, an item or a code block comes with whether none of its kind has ended
inside it, an item with its number too, and a list with the number it has come to. -/
structure Nest where
  tags : List Tag := []
  codes : List (Unit × Bool) := []
  links : List (String × Bool) := []
  items : List (Option Nat × Bool) := []
  lists : List (Option Nat) := []

namespace Nest

def soil {α : Type} : List (α × Bool) → List (α × Bool)
  | [] => []
  | first :: rest => (first.1, false) :: rest

def count : List (Option Nat) → List (Option Nat)
  | some next :: lists => some ((next + 1) % 2 ^ 64) :: lists
  | lists => lists

def start (n : Nest) (tag : Tag) : Nest :=
  let n := { n with tags := tag :: n.tags }
  match tag with
  | .link destination | .image destination => { n with links := (destination, true) :: n.links }
  | .list start => { n with lists := start :: n.lists }
  | .codeBlock _ => { n with codes := ((), true) :: n.codes }
  | .item => { n with items := (n.lists.head?.join, true) :: n.items }
  | _ => n

def stop (n : Nest) (tag : Tag) : Nest :=
  let n := { n with tags := n.tags.tail }
  match tag with
  | .link _ | .image _ => { n with links := soil n.links.tail }
  | .list _ => { n with lists := n.lists.tail }
  | .codeBlock _ => { n with codes := soil n.codes.tail }
  | .item => { n with items := soil n.items.tail, lists := count n.lists }
  | _ => n

/-- An end that is not the innermost container's is refused. -/
def consume (n : Nest) : MarkdownEvent → Option Nest
  | .start tag => some (n.start tag)
  | .stop tag => if n.tags.head? = some tag then some (n.stop tag) else none
  | _ => some n

end Nest

def nest (events : List MarkdownEvent) : Option Nest := events.foldlM Nest.consume {}

def readMarkdown (tokenizeInline : String → List InlineNode) (events : List MarkdownEvent) : MarkdownState :=
  events.foldl (fun s => s.consume tokenizeInline) {}

def parseMarkdown (tokenizeInline : String → List InlineNode) (events : List MarkdownEvent) :
    List (BlockKind × List InlineNode) := (readMarkdown tokenizeInline events).flush.blocks

/-- The innermost item has the number of its list until an item ends inside it. -/
def Owns : List Tag → List (Option Nat × Bool) → List (Option Nat) → Prop
  | .item :: _, item :: _, lists => item.2 → lists.head?.join = item.1
  | .list _ :: tags, items, _ :: lists => Owns tags items lists
  | _ :: tags, items, lists => Owns tags items lists
  | [], _, _ => True

def Tag.isNumbered : Tag → Bool
  | item | list _ => true
  | _ => false

structure Context (n : Nest) (s : MarkdownState) : Prop where
  link : s.activeLink = (n.links.head?.filter Prod.snd).map Prod.fst
  item : s.inItem = n.items.head?.any Prod.snd
  lists : s.lists = n.lists.map fun number => (number.isSome, number)
  code : s.codeLanguage.isSome = n.codes.head?.any Prod.snd
  owns : Owns n.tags n.items n.lists

variable {n n' : Nest} {s s' : MarkdownState} {tag : Tag} {event : MarkdownEvent} {events : List MarkdownEvent}

theorem begin_frame (s : MarkdownState) (kn : BlockKind) : ∃ current, s.begin kn = { s with current } := by
  unfold MarkdownState.begin
  split
  · exact ⟨_, rfl⟩
  · exact ⟨s.current, rfl⟩

theorem flush_frame (s : MarkdownState) : ∃ current blocks, s.flush = { s with current, blocks } := by
  unfold MarkdownState.flush
  split
  · exact ⟨s.current, s.blocks, rfl⟩
  · split <;> exact ⟨_, _, rfl⟩

theorem Context.shown {n : Nest} {s : MarkdownState} (h : Context n s) (current blocks) :
    Context n { s with current, blocks } := ⟨h.link, h.item, h.lists, h.code, h.owns⟩

theorem push_frame (nodes : List InlineNode) (s : MarkdownState) :
    nodes.foldl MarkdownState.push s = { s with current := s.current.map fun block => (block.1, block.2 ++ nodes) } := by
  induction nodes generalizing s with
  | nil => cases hC : s.current <;> simp [← hC]
  | cons node nodes ih =>
    rw [List.foldl_cons, ih]
    cases hC : s.current <;> simp [MarkdownState.push, hC]

theorem owns_soiled (tags : List Tag) (it : List (Option Nat × Bool)) (lists : List (Option Nat)) :
    Owns tags (Nest.soil it) lists := by
  induction tags generalizing lists with
  | nil => simp [Owns]
  | cons ta tags ih => cases ta <;> cases it <;> cases lists <;> simp_all [Owns, Nest.soil]

theorem Context.start (h : Context n s) (tags : Tag) : Context (n.start tags) (s.start tags) := by
  obtain ⟨cr, blocks, hF⟩ := flush_frame s
  cases tags with
  | paragraph =>
    obtain ⟨cr, hB⟩ := begin_frame s s.contextualKind
    rw [MarkdownState.start, hB]
    exact ⟨h.link, h.item, h.lists, h.code, h.owns⟩
  | heading lv =>
    obtain ⟨cr, hB⟩ := begin_frame s.flush (.heading lv)
    rw [MarkdownState.start, hB, hF]
    exact ⟨h.link, h.item, h.lists, h.code, h.owns⟩
  | codeBlock ln =>
    obtain ⟨cr, hB⟩ := begin_frame { s.flush with codeLanguage := some (ln.getD "") } (.code ln)
    rw [MarkdownState.start, hB, hF]
    exact ⟨h.link, h.item, h.lists, rfl, h.owns⟩
  | item =>
    obtain ⟨cr, hB⟩ := begin_frame { s.flush with inItem := true } _
    rw [MarkdownState.start, hB, hF]
    exact ⟨h.link, rfl, h.lists, h.code, fun _ => rfl⟩
  | list st => exact ⟨h.link, h.item, congrArg _ h.lists, h.code, h.owns⟩
  | link | image => exact ⟨rfl, h.item, h.lists, h.code, h.owns⟩
  | blockQuote | plain => exact ⟨h.link, h.item, h.lists, h.code, h.owns⟩

theorem finishItem_count (lists : List (Option Nat)) : MarkdownState.finishItem (lists.map fun nm => (nm.isSome, nm)) =
    (Nest.count lists).map fun nm => (nm.isSome, nm) := by
  rcases lists with _ | ⟨_ | _, _⟩ <;> rfl

theorem Context.stop (h : Context n s) (hTop : n.tags.head? = some tag) : Context (n.stop tag) (s.stop tag) := by
  obtain ⟨cr, blocks, hF⟩ := flush_frame s
  obtain ⟨tags, codes, links, items, lists⟩ := n
  obtain ⟨tags, rfl⟩ := List.head?_eq_some_iff.mp hTop
  obtain ⟨hL, hi, hl, hC, ho⟩ := h
  cases tag with
  | paragraph | heading lv =>
    rw [MarkdownState.stop, hF]
    exact ⟨hL, hi, hl, hC, ho⟩
  | codeBlock ln =>
    rw [MarkdownState.stop, hF]
    refine ⟨hL, hi, hl, ?_, ho⟩
    change false = (Nest.soil codes.tail).head?.any Prod.snd
    cases codes.tail <;> rfl
  | item =>
    rw [MarkdownState.stop, hF]
    refine ⟨hL, ?_, ?_, hC, owns_soiled ..⟩
    · change false = (Nest.soil items.tail).head?.any Prod.snd
      cases items.tail <;> rfl
    · exact (congrArg _ hl).trans (finishItem_count lists)
  | list st =>
    rw [MarkdownState.stop, hF]
    refine ⟨hL, hi, by simp [Nest.stop, hl], hC, ?_⟩
    cases lists <;> exact ho
  | link | image =>
    refine ⟨?_, hi, hl, hC, ho⟩
    change none = ((Nest.soil links.tail).head?.filter Prod.snd).map Prod.fst
    cases links.tail <;> rfl
  | blockQuote | plain => exact ⟨hL, hi, hl, hC, ho⟩

theorem Context.consume (h : Context n s) (hN : n.consume event = some n') : Context n' (s.consume t event) := by
  have hL (nodes : List InlineNode) : Context n (nodes.foldl MarkdownState.push (s.begin s.contextualKind)) := by
    obtain ⟨cr, hB⟩ := begin_frame s s.contextualKind
    rw [push_frame, hB]
    exact h.shown _ s.blocks
  cases event with
  | start tag =>
    cases hN
    exact h.start tag
  | stop tag =>
    simp only [Nest.consume, Option.ite_none_right_eq_some] at hN
    obtain ⟨hT, hN⟩ := hN
    cases hN
    exact h.stop hT
  | rule =>
    cases hN
    obtain ⟨cr, blocks, hF⟩ := flush_frame s
    rw [MarkdownState.consume, MarkdownState.rule, hF]
    exact h.shown _ _
  | _ =>
    cases hN
    exact hL _

theorem Context.read (h : Context n s) (hN : events.foldlM Nest.consume n = some n') :
    Context n' (events.foldl (fun s => s.consume t) s) := by
  induction events generalizing n s with
  | nil =>
    cases hN
    exact h
  | cons event events ih =>
    obtain ⟨m, hm, hN⟩ := Option.bind_eq_some_iff.mp hN
    exact ih (h.consume hm) hN

theorem context_of_nest (h : nest events = some n) : Context n (readMarkdown t events) :=
  Context.read (n := {}) ⟨rfl, rfl, rfl, rfl, trivial⟩ h

namespace MarkdownState

/-- The inline nodes of the document if it ended here, in their order. -/
def inlines (s : MarkdownState) : List InlineNode := s.flush.blocks.flatMap Prod.snd

theorem inlines_eq (s : MarkdownState) : s.inlines = (s.blocks ++ s.current.toList).flatMap Prod.snd := by
  unfold inlines flush
  cases hC : s.current with
  | none => simp
  | some block =>
    dsimp only
    split_ifs with hE <;> simp [hE]

theorem inlines_congr (hB : s'.blocks = s.blocks) (hC : s'.current = s.current) : inlines s' = inlines s := by
  rw [inlines_eq, inlines_eq, hB, hC]

theorem current_flush (s : MarkdownState) : s.flush.current = none := by
  unfold flush
  cases hC : s.current with
  | none => exact hC
  | some block => dsimp only; split_ifs <;> rfl

theorem inlines_flush (s : MarkdownState) : s.flush.inlines = s.inlines := by
  rw [inlines_eq, current_flush]
  simp [inlines]

theorem inlines_flushed (s : MarkdownState) (hB : s'.blocks = s.flush.blocks) (hC : s'.current = s.flush.current) :
    s'.inlines = s.inlines := (inlines_congr hB hC).trans s.inlines_flush

theorem inlines_begin (s : MarkdownState) (kind : BlockKind) : (s.begin kind).inlines = s.inlines := by
  rw [inlines_eq, inlines_eq]
  unfold begin
  cases hC : s.current <;> simp [hC]

theorem inlines_start (s : MarkdownState) (tag : Tag) : (s.start tag).inlines = s.inlines := by
  cases tag with
  | paragraph => exact inlines_begin ..
  | heading => exact (inlines_begin ..).trans s.inlines_flush
  | codeBlock | item => exact (inlines_begin ..).trans (inlines_flushed s rfl rfl)
  | _ => exact inlines_congr rfl rfl

theorem inlines_stop (s : MarkdownState) (tag : Tag) : (s.stop tag).inlines = s.inlines := by
  cases tag with
  | paragraph | heading => exact s.inlines_flush
  | codeBlock | list | item => exact inlines_flushed s rfl rfl
  | _ => exact inlines_congr rfl rfl

theorem inlines_leaf (s : MarkdownState) (nodes : List InlineNode) :
    (nodes.foldl push (s.begin s.contextualKind)).inlines = s.inlines ++ nodes := by
  rw [push_frame, inlines_eq, inlines_eq]
  unfold begin
  cases hC : s.current <;> simp [hC]

/-- No inline node is lost or comes twice. -/
theorem inlines_consume (s : MarkdownState) (event : MarkdownEvent) :
    (s.consume t event).inlines = s.inlines ++ s.shown t event := by
  cases event with
  | start tag => exact (s.inlines_start tag).trans (append_nil _).symm
  | stop tag => exact (s.inlines_stop tag).trans (append_nil _).symm
  | rule =>
    have hR : s.rule.inlines = s.flush.inlines := by
      have hC := s.current_flush
      rw [inlines_eq, inlines_eq, rule]
      simp [hC]
    exact (hR.trans s.inlines_flush).trans (append_nil _).symm
  | _ => exact s.inlines_leaf _

theorem inlines_read (events : List MarkdownEvent) (s : MarkdownState) :
    ∃ rest, (events.foldl (fun s => s.consume t) s).inlines = s.inlines ++ rest := by
  induction events generalizing s with
  | nil => exact ⟨[], (append_nil _).symm⟩
  | cons event events ih =>
    obtain ⟨rest, hR⟩ := ih (s.consume t event)
    exact ⟨s.shown t event ++ rest, by rw [List.foldl_cons, hR, inlines_consume, append_assoc]⟩

/-- A block that begins is of the kind of its context, or it is a heading or a code block. -/
theorem Begins.kind {kind : BlockKind} (h : s.Begins t event kind) : kind = (s.consume t event).contextualKind ∨
    (∃ level, event = .start (.heading level)) ∨ ∃ language, event = .start (.codeBlock language) := by
  obtain ⟨hE, nodes, hC⟩ := h
  have hB (hN : s.current = none) : s.begin s.contextualKind = { s with current := some (s.contextualKind, []) } := by
    simp [begin, hN]
  have hL (shown : List InlineNode) (hN : s.current = none)
      (hC : (shown.foldl push (s.begin s.contextualKind)).current = some (kind, nodes)) :
      kind = (shown.foldl push (s.begin s.contextualKind)).contextualKind := by
    rw [push_frame, hB hN] at hC ⊢
    cases hC
    rfl
  cases event with
  | start tag =>
    cases tag with
    | paragraph =>
      have hN := hE.resolve_right nofun
      rw [consume, start, hB hN] at hC ⊢
      cases hC
      exact .inl rfl
    | item =>
      rw [consume, start, begin, if_pos (by simp [s.current_flush])] at hC ⊢
      cases hC
      exact .inl rfl
    | heading level => exact .inr (.inl ⟨level, rfl⟩)
    | codeBlock language => exact .inr (.inr ⟨language, rfl⟩)
    | _ => cases (hE.resolve_right nofun).symm.trans hC
  | stop tag =>
    cases tag with
    | blockQuote | link | image | plain => cases (hE.resolve_right nofun).symm.trans hC
    | _ => cases s.current_flush.symm.trans hC
  | rule => cases s.current_flush.symm.trans hC
  | _ => exact .inl (hL _ (hE.resolve_right nofun) hC)

end MarkdownState

theorem Owns.number (h : Owns tags it lists) (hF : tags.find? Tag.isNumbered = some .item)
    (hH : it.head? = some (ordinal, true)) : lists.head?.join = ordinal := by
  induction tags with
  | nil => cases hF
  | cons ta tags ih =>
    cases it with
    | nil => cases hH
    | cons ite it =>
      cases hH
      cases ta <;> simp_all [Owns, Tag.isNumbered]

theorem Context.kind (h : Context n s) (hH : n.items.head? = some (ordinal, clean)) (hC : n.codes = []) :
    (∃ ordered, s.contextualKind = .listItem ordered ordinal n.lists.length) ↔
      clean = true ∧ n.lists.length ≤ 255 ∧ n.lists.head?.join = ordinal := by
  obtain ⟨-, hItem, hL, hc, -⟩ := h
  have hn : s.codeLanguage = none := by simpa [hC] using hc
  have he : (s.lists.head?.getD (false, none)).2 = n.lists.head?.join := by
    rw [hL]
    cases n.lists <;> rfl
  rw [hH] at hItem
  cases clean
  · have hK : ∀ ordered, s.contextualKind ≠ .listItem ordered ordinal n.lists.length := fun ordered => by
      simp only [MarkdownState.contextualKind, hn, hItem]
      split_ifs <;> simp_all
    simpa using hK
  · have hE : s.lists.length = n.lists.length := by simp [hL]
    simp [MarkdownState.contextualKind, hn, hItem, he, hE, and_comm]

end NmpStore.Content
