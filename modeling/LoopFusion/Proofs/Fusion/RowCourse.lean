import LoopFusion.Proofs.Fusion.Course
import LoopFusion.Proofs.Fusion.RowFused

/-!
A run on a row ends with one loop: as long as there are two a look finds a plan, and carrying it out
leaves a row with one loop less.
-/

namespace LoopFusion

open Pass

theorem Cell.head_merge (s t : List Cell) (a c : Cell) :
    (s ++ a.merge c :: t).head?.map (fun c => (c.made.header, c.made.iv)) =
      (s ++ a :: c :: t).head?.map fun c => (c.made.header, c.made.iv) := by
  cases s <;> rfl

namespace Draft.Row

variable {d : Draft} {f f' : Func} {e : BlockId} {cells : List Cell} {t t' : SymbolTable}
  {done : Nat} {looks : List (Option FusionPlan)} {pairs : List FusedPair}

/-- An unlimited run fuses all loops of a row, with one look for each of them. -/
theorem ends_single (h : d.Row f e cells) (hne : cells ≠ []) (hd : d.Independent)
    (hcount : ∀ t, (d.count t).1.isSome)
    (hcourse : Course .standard done f t looks pairs f' t') :
    ∃ c, d.Row f' e [c] ∧
      cells.head?.map (fun c => (c.made.header, c.made.iv)) = some (c.made.header, c.made.iv) ∧
        pairs.length + 1 = cells.length ∧ looks.length = cells.length := by
  generalize hconfig : FusionConfig.standard = config at hcourse
  induction hcourse generalizing cells with
  | spent hex => subst hconfig; cases hex
  | last _ _ hr => subst hconfig; cases hr
  | idle _ hlook =>
    subst hconfig
    match cells, hne with
    | [c], _ => exact ⟨c, h, rfl, rfl, rfl⟩
    | a :: b :: rest, _ =>
      obtain ⟨p, hp⟩ := h.exists_look hd hcount rfl _
      rw [hlook] at hp
      cases hp
  | more _ hlook _ _ ih =>
    subst hconfig
    obtain ⟨_, _, hp⟩ := accepted_of_look h.wellFormed hlook
    obtain ⟨s, a, b, rest, rfl, hj⟩ := h.exists_joins hp
    have hfused := h.fused hp.fits hj hd hp.clean
    obtain ⟨c, hc, hhead, hpairs, hlooks⟩ := ih hfused (by simp)
    rw [Cell.head_merge] at hhead
    refine ⟨c, hc, hhead, ?_, ?_⟩ <;>
      simp only [List.length_append, List.length_cons] at hpairs hlooks ⊢ <;> omega

/-- A row of one cell has one loop, whose bodies stand next to each other. -/
theorem loops_single {c : Cell} (h : d.Row f e [c]) : ∃ l, f.forest.loops = [l] ∧
    l.header = c.made.header ∧ l.bodyBlocks = c.bodies ∧ c.bodies <:+: f.layout := by
  have hc := List.mem_singleton_self c
  have hf := h.staged.inArena
  have he := h.staged.entry
  obtain ⟨l, hl, hlc⟩ := h.exists_loop hc
  have honly : ∀ l' ∈ f.forest.loops, l' = l := fun l' hl' => by
    obtain ⟨c', hc', hlc'⟩ := h.exists_cell hl'
    obtain rfl := List.mem_singleton.1 hc'
    exact LoopForest.eq_of_header hf he hl' hl (hlc'.trans hlc.symm)
  have hperm : f.forest.loops.Perm [l] :=
    (List.perm_ext_iff_of_nodup (LoopForest.nodup_loops hf he) (List.nodup_singleton l)).2
      fun l' => ⟨fun hl' => List.mem_singleton.2 (honly l' hl'),
        fun hl' => List.mem_singleton.1 hl' ▸ hl⟩
  refine ⟨l, List.perm_singleton.1 hperm, hlc, h.bodyBlocks_eq hc hl hlc, ?_⟩
  rw [h.layout]
  exact ⟨[e, c.made.header], [c.made.latch, c.made.exit], by simp [Cell.line, Cell.blocks]⟩

end Draft.Row

end LoopFusion
