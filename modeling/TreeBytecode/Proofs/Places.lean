import TreeBytecode.Proofs.Nesting

namespace TreeBytecode

open Wire

/-- A part of a payload. -/
inductive Piece
  /-- So many bytes that belong to the node itself. -/
  | own (count : Nat)
  /-- The frame of a node inside it. -/
  | inner (n : Node)

namespace Piece

def array (ns : List Node) : List Piece := .own 4 :: ns.map .inner

def nodes : List Piece → List Node
  | [] => []
  | .own _ :: ps => nodes ps
  | .inner m :: ps => m :: nodes ps

theorem mem_nodes_iff {m : Node} {ps : List Piece} : m ∈ nodes ps ↔ .inner m ∈ ps := by
  induction ps with
  | nil => simp [nodes]
  | cons p ps ih => cases p <;> simp [nodes, ih]

@[simp] theorem nodes_append (ps qs : List Piece) : nodes (ps ++ qs) = nodes ps ++ nodes qs := by
  induction ps with
  | nil => rfl
  | cons p ps ih => cases p <;> simp [nodes, ih]

@[simp] theorem nodes_map (ns : List Node) : nodes (ns.map .inner) = ns := by
  induction ns with
  | nil => rfl
  | cons n ns ih => rw [List.map_cons, nodes, ih]

@[simp] theorem nodes_array (ns : List Node) : nodes (array ns) = ns := nodes_map ns

end Piece

def Method.endingPieces (layout : Layout) (m : Method) : List Piece :=
  (if layout = .kindMarker then [.own 1] else []) ++
    match m.kind with
    | .plain => []
    | .constructor calls => Piece.array (calls.map .component)

namespace Node

/-- The payload behind a tag: numbers and bits have their own widths, and a string, like a count,
has that of its number. -/
def pieces (layout : Layout) : Node → List Piece
  | .byte _ => [.own 1]
  | .int32 _ | .uint32 _ | .string _ => [.own 4]
  | .uint64 _ => [.own 8]
  | .position _ | .parameter _ => [.own 4, .own 4]
  | .classDef c =>
    [.own 1, .own 1, .own 4, .own 4] ++ Piece.array (c.imports.map .string) ++
      Piece.array (c.superclasses.map fun r ↦ .string r.name) ++
      Piece.array (c.interfaces.map fun r ↦ .string r.name) ++
      Piece.array (c.declaredMembers.map ClassMember.toNode) ++
      Piece.array (c.typeParameters.map .string)
  | .method m =>
    [.own 1, .own 4, .own 4, .own 4, .inner (.position m.position)] ++
      Piece.array (m.parameters.map .parameter) ++ [.inner (.codeBlock m.body)] ++
      m.endingPieces layout
  | .property p =>
    [.own 1, .own 4, .own 4, .own 4, .inner (.position p.position), .own 1] ++
      (Slot.children Property.slots p).map .inner
  | .codeBlock b => Piece.array (b.map .statement)
  | .statement s =>
    [.own 4, .own 4, .own 4, .own 4] ++ Piece.array (s.components.map .component) ++ [.own 1] ++
      (Slot.children Statement.slots s).map .inner
  | .component c =>
    [.own 4, .own 4, .own 1, .own 8, .own 4] ++ Piece.array (c.args.map .string) ++
      [.inner (.position c.position), .own 1] ++ (Slot.children Component.slots c).map .inner

variable {layout : Layout}

theorem nodes_pieces (n : Node) : Piece.nodes (n.pieces layout) = n.embedded := by
  cases n with
  | byte | int32 | uint32 | uint64 | string | parameter | position => rfl
  | codeBlock | classDef | property | statement | component =>
    simp [pieces, embedded, Piece.nodes]
  | method d =>
    cases hk : d.kind <;> cases layout <;>
      simp [pieces, embedded, Piece.nodes, Method.endingPieces, Method.superCalls, hk]

theorem mem_pieces_iff {m n : Node} : .inner m ∈ n.pieces layout ↔ m ∈ n.embedded := by
  rw [← Piece.mem_nodes_iff, nodes_pieces]

def width (layout : Layout) (n : Node) : Nat :=
  1 + ((n.pieces layout).attach.map fun
    | ⟨.own count, _⟩ => count
    | ⟨.inner m, _⟩ => m.width layout).foldr (· + ·) 0
termination_by sizeOf n
decreasing_by exact sizeOf_lt_of_mem_embedded (mem_pieces_iff.1 ‹_›)

end Node

namespace Piece

def width (layout : Layout) : Piece → Nat
  | .own count => count
  | .inner m => m.width layout

def widths (layout : Layout) (ps : List Piece) : Nat := (ps.map (width layout)).foldr (· + ·) 0

def collect {β : Type} (layout : Layout) (f : Nat → Node → List β) : Nat → List Piece → List β
  | _, [] => []
  | offset, .own count :: ps => collect layout f (offset + count) ps
  | offset, .inner m :: ps => f offset m ++ collect layout f (offset + m.width layout) ps

variable {layout : Layout} {β : Type} {f : Nat → Node → List β}

theorem widths_cons (p : Piece) (ps : List Piece) :
    widths layout (p :: ps) = p.width layout + widths layout ps := rfl

theorem widths_append (ps qs : List Piece) :
    widths layout (ps ++ qs) = widths layout ps + widths layout qs := by
  induction ps with
  | nil => exact (Nat.zero_add _).symm
  | cons p ps ih => rw [List.cons_append, widths_cons, widths_cons, ih, Nat.add_assoc]

theorem collect_append (offset : Nat) (ps qs : List Piece) :
    collect layout f offset (ps ++ qs) =
      collect layout f offset ps ++ collect layout f (offset + widths layout ps) qs := by
  induction ps generalizing offset with
  | nil => rfl
  | cons p ps ih =>
    cases p with
    | own count =>
      rw [List.cons_append, collect, collect, ih, widths_cons, width, Nat.add_assoc]
    | inner m =>
      rw [List.cons_append, collect, collect, ih, widths_cons, width, List.append_assoc,
        Nat.add_assoc]

theorem collect_eq_nil_iff {P : Node → Prop} (hf : ∀ offset m, f offset m = [] ↔ P m)
    {offset : Nat} {ps : List Piece} :
    collect layout f offset ps = [] ↔ ∀ m, .inner m ∈ ps → P m := by
  induction ps generalizing offset with
  | nil => exact iff_of_true rfl fun m hm ↦ absurd hm List.not_mem_nil
  | cons p ps ih =>
    cases p with
    | own count => simp [collect, ih]
    | inner m => simp [collect, ih, hf]

end Piece

namespace Node

variable {layout : Layout}

theorem width_eq (n : Node) : n.width layout = 1 + Piece.widths layout (n.pieces layout) := by
  have hws := List.attach_map_val (l := n.pieces layout) (f := Piece.width layout)
  rw [width, Piece.widths, ← hws]
  refine congrArg (fun ws ↦ 1 + ws.foldr (· + ·) 0) (List.map_congr_left fun p _ ↦ ?_)
  obtain ⟨p, hp⟩ := p
  cases p <;> rfl

/-- The places of the frames that are so many levels below the frame of a node, in the order of the
stream, if that frame is at a place; on level 0 there is that frame alone. -/
def starts (layout : Layout) : (below : Nat) → Location → Node → List Location
  | 0, place, _ => [place]
  | below + 1, place, n => Piece.collect layout (fun offset m ↦ starts layout below
      ⟨some n.tag, offset⟩ m) (place.offset + 1) (n.pieces layout)

def level : (below : Nat) → Node → List Node
  | 0, n => [n]
  | below + 1, n => n.embedded.flatMap (level below)

theorem starts_eq_nil_iff {below : Nat} {place : Location} {n : Node} :
    n.starts layout below place = [] ↔ n.depth ≤ below := by
  induction below generalizing place n with
  | zero =>
    have := n.depth_pos
    exact iff_of_false (by simp [starts]) (by omega)
  | succ below ih =>
    rw [starts, depth_le_succ_iff]
    refine (Piece.collect_eq_nil_iff (P := fun m ↦ m.depth ≤ below) fun _ _ ↦ ih).trans ?_
    simp only [mem_pieces_iff]

end Node

end TreeBytecode
