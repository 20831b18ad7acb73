import Franklin.Fs.Lemmas.Names

/-!
This module contains what `vfs_open` does if `kalloc` has given the block of a freed ramnode, to which
`ram->nodes` still points, to the copy of the name of the new file.
-/

namespace Franklin
namespace Fs

def overwrite (addr name : Name) : Name :=
  (addr ++ name.drop 8).takeWhile (· ≠ Char.ofNat 0)

/--
`ramfs_alloc_file` if `strldup` is given the block of the ramnode that `ram->nodes` points to, which has to
be freed. The new ramnode is at the address `addr`.
-/
def ramfs_alloc_file_overwritten (addr : Name) (vdir : Nat) (name : Name) (len : Nat) (type : VType)
    (target : Option Name) : Prog (Code × Option Nat) := do
  let vd ← getVnode vdir
  let name := strldup name len
  if vd.type ≠ .VDIR ∨ (target.isSome ∧ type ≠ .VLNK) then
    pure (some .EINVAL, none)
  else
    let st ← getSt
    match (st.vfss vd.vfs).nodes with
    | .ref head =>
      if (st.nodes head).freed ∧ (type = .VLNK → target.isSome) then
        -- `ram->nodes->prev = node` writes to the name, `prev` is the first field of a ramnode
        let n ← newNode vd.vfs (some vd.data) type (target.getD [])
        let de ← ramfs_alloc_dentry n (overwrite addr name)
        let _ ← ramfs_dir_attach vd.data de
        let v ← ramfs_vget vd.vfs n
        pure (none, some v)
      else
        throw .fault
    | _ => throw .fault

section

variable {s : St} {d : Nat}

theorem UniqueNames.attach_iff (h : UniqueNames s) (de : RamDentry)
    : UniqueNames (s.attach d de) ↔ ∀ de' ∈ (s.nodes d).dentry, de'.name ≠ de.name := by
  have hself : ((s.attach d de).nodes d).dentry.map (·.name)
      = de.name :: (s.nodes d).dentry.map (·.name) := by
    simp [St.attach]
  constructor
  . intro hs de' hde' heq
    have hd := hs d
    rw [hself, List.nodup_cons] at hd
    apply hd.1
    rw [← heq]
    apply List.mem_map_of_mem hde'
  . intro hnew n
    by_cases hn : n = d
    . rw [hn, hself, List.nodup_cons]
      refine ⟨?_, h d⟩
      intro hmem
      rcases List.mem_map.mp hmem with ⟨de', hde', heq⟩
      exact hnew de' hde' heq
    . unfold St.attach
      rw [St.updNode_nodes_of_ne hn]
      apply h n

theorem St.vnew_dentry (vfs n m : Nat) : ((s.vnew vfs n).nodes m).dentry = (s.nodes m).dentry := by
  unfold St.vnew
  dsimp only
  by_cases hm : m = n
  . rw [hm, St.updNode_nodes_self]
  . rw [St.updNode_nodes_of_ne hm]

theorem UniqueNames.congr {s' : St} (h : ∀ n, (s'.nodes n).dentry = (s.nodes n).dentry)
    : UniqueNames s' ↔ UniqueNames s := by
  unfold UniqueNames
  simp only [h]

theorem wp_ramfs_alloc_file_overwritten (h : UniqueNames s) {vdir : Nat}
    (hlt : (s.vnodes vdir).data ≠ s.nextNode)
    (htype : (s.vnodes vdir).type = .VDIR → (s.nodes (s.vnodes vdir).data).type = .VDIR)
    (addr name : Name) (len : Nat) (type : VType) (target : Option Name)
    : wp (ramfs_alloc_file_overwritten addr vdir name len type target)
        (fun r s' => r.1 = none →
          (UniqueNames s' ↔ ∀ de ∈ (s.nodes (s.vnodes vdir).data).dentry,
            de.name ≠ overwrite addr (strldup name len)))
        (fun _ _ => True) s := by
  unfold ramfs_alloc_file_overwritten
  rw [wp_bind, wp_getVnode]
  refine ⟨fun _ => trivial, ?_⟩
  intro _
  dsimp only
  split
  . simp [wp_pure]
  . next hcond =>
    rw [not_or, not_not] at hcond
    rw [wp_bind, wp_getSt]
    split
    . split
      . let s1 := after (newNode (s.vnodes vdir).vfs (some (s.vnodes vdir).data) type (target.getD [])) s
        have hold : ∀ n, n ≠ s.nextNode → s1.nodes n = s.nodes n := by
          intro n hn
          exact Function.update_of_ne hn _ _
        have hnew : (s1.nodes s.nextNode).dentry = [] := by
          simp [s1, after, newNode]
        have hunique : UniqueNames (s1.addLink s.nextNode) := by
          intro n
          by_cases hn : n = s.nextNode
          . rw [hn]
            simp [St.addLink, hnew]
          . unfold St.addLink
            rw [St.updNode_nodes_of_ne hn, hold n hn]
            apply h n
        have hdir : (s1.addLink s.nextNode).nodes (s.vnodes vdir).data = s.nodes (s.vnodes vdir).data := by
          unfold St.addLink
          rw [St.updNode_nodes_of_ne hlt, hold _ hlt]
        change wp (newNode _ _ _ _ >>= _) _ _ s
        rw [wp_bind]
        change wp (ramfs_alloc_dentry s.nextNode _ >>= _) _ _ s1
        apply wp_bind_mono (wp_ramfs_alloc_dentry (P := fun _ => True) _ (R := fun de s' =>
          de = { name := overwrite addr (strldup name len), node := s.nextNode, seq := 0 } ∧
          s' = s1.addLink s.nextNode) ⟨rfl, rfl⟩) (fun _ _ _ => trivial)
        rintro _ _ ⟨rfl, rfl⟩
        apply wp_bind_mono (wp_ramfs_dir_attach (P := fun _ => True) (R := fun _ s' =>
          s' = (s1.addLink s.nextNode).attach (s.vnodes vdir).data
            { name := overwrite addr (strldup name len), node := s.nextNode, seq := 0 }) _
          (by rw [hdir]; exact htype hcond.1) rfl) (fun _ _ _ => trivial)
        rintro _ _ rfl
        have hself : ((s1.addLink s.nextNode).attach (s.vnodes vdir).data
            { name := overwrite addr (strldup name len), node := s.nextNode, seq := 0 }).nodes
              s.nextNode = (s1.addLink s.nextNode).nodes s.nextNode :=
          St.updNode_nodes_of_ne (Ne.symm hlt)
        rw [wp_bind]
        apply wp_ramfs_vget_none
        . intro _
          trivial
        . rw [hself]
          simp [St.addLink, s1, after, newNode]
        . rw [hself]
          simp [St.addLink]
        . rw [wp_pure]
          intro _
          rw [UniqueNames.congr (St.vnew_dentry _ _), hunique.attach_iff, hdir]
      . trivial
    . trivial

end

/--
The new ramnode is at `0xffff800041414128`, which is `(AAA` in memory.
-/
def address : Name :=
  [0x28, 0x41, 0x41, 0x41, 0x00, 0x80, 0xff, 0xff].map Char.ofNat

end Fs
end Franklin
