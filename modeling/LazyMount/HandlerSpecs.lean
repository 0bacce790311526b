import LazyMount.KernelCalls
import LazyMount.OverlayContent
import LazyMount.Listing

/-! What a handler has done when it returns: one statement for each of those that change a file
or a symlink. -/

namespace LazyMount

open RepoPath Prog Handler

theorem World.Names.unique {w : World} {parent : Nat} {name : Bytes} {p q : RepoPath}
    (h : w.Names parent name p) (h' : w.Names parent name q) : p = q := by
  obtain ⟨dir, hdir, hp⟩ := h
  obtain ⟨dir', hdir', hq⟩ := h'
  obtain rfl : dir = dir' := Except.ok.inj (hdir.symm.trans hdir')
  exact (hp.unique hq).mpr rfl

namespace Projection

variable {P : Projection} {w t : World} {p src dst : RepoPath} {parent ino : Nat} {name : Bytes}

theorem run_childPath (h : (childPath parent name).run w = (.ok p, t)) :
    w.Names parent name p ∧ p.Ordinary ∧ t = w := by
  have hensures : Ensures (· = w) (childPath parent name)
      (fun path v => v = w ∧ v.Names parent name path ∧ path.Ordinary) fun _ => True :=
    ensures_childPath fun _ _ => trivial
  have hh := hensures w rfl
  rw [h] at hh
  obtain ⟨heq, hn, hp⟩ := hh
  exact ⟨heq ▸ hn, hp, heq⟩

theorem run_recordChangeFile {r : Outcome Error Unit}
    (h : (P.recordChangeFile p).run w = (r, t)) : SameTree t w := by
  cases h
  exact ⟨rfl, rfl⟩

theorem run_recordChange {r : Outcome Error Unit} (h : (P.recordChange p).run w = (r, t)) :
    SameTree t w := by
  have hrecord : (P.recordChangeFile p).run w = (.ok (), ((P.recordChangeFile p).run w).2) := rfl
  rw [recordChange, run_bind_ok hrecord] at h
  split at h
  · split at h
    · cases h
      exact ⟨rfl, rfl⟩
    · obtain ⟨hov, hino⟩ := run_recordChangeFile h
      exact ⟨hov, hino⟩
  · cases h
    exact ⟨rfl, rfl⟩

def sizeOf (P : Projection) (ov : Overlay) : Resolved → Except Error Nat
  | .dir _ => .ok 0
  | .gitfile => .ok P.gitfile.length
  | .file (.overlay p) _ => ov.contentSize p
  | .symlink (.overlay target) => .ok target.length
  | .file (.baseline oid) _ | .symlink (.baseline oid) => P.store.objectSize oid

theorem attrOf_run (ino generation : Nat) (r : Resolved) (v : World) :
    (P.attrOf ino generation r).run v = match P.sizeOf v.overlay r with
      | .ok size => (.ok ⟨ino, generation, size, r.kind⟩, v)
      | .error e => (.error e, v) := by
  cases r with
  | dir | gitfile => rfl
  | file source x =>
    cases source with
    | overlay p =>
      rw [attrOf, sizeOf, run_bind_read]
      cases v.overlay.contentSize p <;> rfl
    | baseline oid =>
      rw [attrOf, sizeOf, cachedSize, run_bind_read]
      cases P.store.objectSize oid <;> rfl
  | symlink source =>
    cases source with
    | overlay target => rfl
    | baseline oid =>
      rw [attrOf, sizeOf, cachedSize, run_bind_read]
      cases P.store.objectSize oid <;> rfl

theorem run_create {x : Bool} {r : Attr × ContentId}
    (h : (P.create parent name x).run w = (.ok r, t)) (hn : w.Names parent name p) :
    p.Ordinary ∧ r.2 = w.overlay.newContentId ∧ r.1.kind = .file x ∧
      t.overlay = w.overlay.step (.createFile p x none) ∧ t.inodes = (w.inodes.lookup p).2 := by
  obtain ⟨p', v, hp, h⟩ := run_bind_eq_ok h
  obtain ⟨hn', hord, rfl⟩ := run_childPath hp
  obtain rfl : p = p' := hn.unique hn'
  obtain ⟨_, v', hrec, h⟩ := run_bind_eq_ok h
  obtain ⟨hov, hino⟩ := run_recordChange hrec
  obtain ⟨c, u, hc, h⟩ := run_bind_eq_ok h
  obtain ⟨hcid, rfl⟩ := run_atom_eq_ok hc
  obtain ⟨i, u', hi, h⟩ := run_bind_eq_ok h
  obtain ⟨-, rfl⟩ := run_atom_eq_ok hi
  cases h
  have hcid' : v'.overlay.newContentId = c := Except.ok.inj hcid
  refine ⟨hord, ?_, rfl, ?_, ?_⟩
  · rw [← hcid', hov]
  · show v'.overlay.step _ = _
    rw [hov]
  · show (v'.inodes.lookup p).2 = _
    rw [hino]

theorem run_symlink {target : Bytes} {r : Attr}
    (h : (P.symlink parent name target).run w = (.ok r, t)) (hn : w.Names parent name p) :
    p.Ordinary ∧ t.overlay = w.overlay.step (.putSymlink p target) ∧
      t.inodes = (w.inodes.lookup p).2 := by
  obtain ⟨p', v, hp, h⟩ := run_bind_eq_ok h
  obtain ⟨hn', hord, rfl⟩ := run_childPath hp
  obtain rfl : p = p' := hn.unique hn'
  obtain ⟨_, v', hrec, h⟩ := run_bind_eq_ok h
  obtain ⟨hov, hino⟩ := run_recordChange hrec
  obtain ⟨_, u, hput, h⟩ := run_bind_eq_ok h
  obtain ⟨-, rfl⟩ := run_atom_eq_ok hput
  obtain ⟨i, u', hi, h⟩ := run_bind_eq_ok h
  obtain ⟨-, rfl⟩ := run_atom_eq_ok hi
  cases h
  refine ⟨hord, ?_, ?_⟩
  · show v'.overlay.step _ = _
    rw [hov]
  · show (v'.inodes.lookup p).2 = _
    rw [hino]

theorem run_mkdir {r : Attr} (h : (P.mkdir parent name).run w = (.ok r, t)) (hn : w.Names parent name p) :
    P.resolve w.overlay p = .ok none ∧ t.overlay = w.overlay.step (.putDir p) := by
  obtain ⟨p', v, hp, h₁⟩ := run_bind_eq_ok h
  obtain ⟨hn', -, rfl⟩ := run_childPath hp
  obtain rfl : p = p' := hn.unique hn'
  obtain ⟨o, v', ho, h₂⟩ := run_bind_eq_ok h₁
  obtain ⟨hnone, rfl⟩ := run_read_eq_ok ho
  cases o with
  | some x => cases h₂
  | none =>
    obtain ⟨_, u, hrec, h₃⟩ := run_bind_eq_ok h₂
    obtain ⟨hov, -⟩ := run_recordChange hrec
    obtain ⟨_, u', hput, h₄⟩ := run_bind_eq_ok h₃
    obtain ⟨-, rfl⟩ := run_atom_eq_ok hput
    obtain ⟨i, v, hi, h₅⟩ := run_bind_eq_ok h₄
    obtain ⟨-, rfl⟩ := run_atom_eq_ok hi
    cases h₅
    exact ⟨hnone, by rw [← hov]⟩

theorem run_removeName {onBaseline : Bool} (h : (P.removeName p onBaseline).run w = (.ok (), t)) :
    t.overlay = w.overlay.step (if onBaseline then .tombstone p else .clear p) ∧
      t.inodes = w.inodes.unlink p := by
  obtain ⟨_, v, hrec, h⟩ := run_bind_eq_ok h
  obtain ⟨hov, hino⟩ := run_recordChange hrec
  obtain ⟨_, u, hm, h⟩ := run_bind_eq_ok h
  obtain ⟨-, rfl⟩ := run_atom_eq_ok hm
  cases h
  exact ⟨by rw [← hov], by rw [← hino]⟩

theorem run_unlink (h : (P.unlink parent name).run w = (.ok (), t)) (hn : w.Names parent name p) :
    p.Ordinary ∧ ∃ b, P.baselineResolve p = .ok b ∧
      t.overlay = w.overlay.step (if b.isSome then .tombstone p else .clear p) ∧
      t.inodes = w.inodes.unlink p := by
  obtain ⟨p', v, hp, h₁⟩ := run_bind_eq_ok h
  obtain ⟨hn', hord, rfl⟩ := run_childPath hp
  obtain rfl : p = p' := hn.unique hn'
  obtain ⟨b, v', hb, h₂⟩ := run_bind_eq_ok h₁
  obtain ⟨hbase, rfl⟩ := run_read_eq_ok hb
  refine ⟨hord, b, hbase, ?_⟩
  split at h₂
  · rename_i hsome
    rw [if_pos hsome]
    exact run_removeName h₂
  · rename_i hnone
    rw [if_neg hnone]
    obtain ⟨o, u, ho, h₃⟩ := run_bind_eq_ok h₂
    obtain ⟨-, rfl⟩ := run_read_eq_ok ho
    cases o with
    | none => cases h₃
    | some e => exact run_removeName h₃

/-- What a copy-up starts from: nothing if the file is truncated anyway, else the blob. -/
def SeedOf (P : Projection) (oid : ObjectId) (trunc : Prop) (seed : Option Bytes) : Prop :=
  trunc ∧ seed = none ∨ ¬ trunc ∧ ∃ bytes, seed = some bytes ∧ P.store.readBlobRaw oid = .ok bytes

/-- The overlay in which the file at `p` can be written as the content file `c`: the one there
is, if the file is in it, else the one after a copy-up. -/
inductive Opens (P : Projection) (ov : Overlay) (p : RepoPath) (trunc : Prop) :
    Bool → ContentId → Overlay → Prop
  | overlay {c : ContentId} {x : Bool} {bytes : Bytes} (hl : ov.lookup p = some (.file c x))
    (hc : ov.disk.content c = some bytes) : Opens P ov p trunc x c ov
  | baseline {oid : ObjectId} {x : Bool} {seed : Option Bytes}
    (hr : P.resolve ov p = .ok (some (.file (.baseline oid) x))) (hs : P.SeedOf oid trunc seed) :
    Opens P ov p trunc x ov.newContentId (ov.step (.createFile p x seed))

theorem openContent_eq_ok {ov : Overlay} {c : ContentId} (h : ov.openContent p = .ok c) :
    ∃ x bytes, ov.lookup p = some (.file c x) ∧ ov.disk.content c = some bytes := by
  rw [Overlay.openContent] at h
  split at h
  · rename_i b x hl
    split at h
    · rename_i hc
      cases h
      obtain ⟨bytes, hb⟩ := Option.isSome_iff_exists.mp hc
      exact ⟨x, bytes, hl, hb⟩
    · cases h
  · cases h

theorem run_seed {trunc : Prop} [Decidable trunc] {oid : ObjectId} {seed : Option Bytes}
    (h : (if trunc then pure none else some <$> P.materialize oid : Handler (Option Bytes)).run w =
      (.ok seed, t)) : P.SeedOf oid trunc seed ∧ t = w := by
  split at h
  · rename_i htrunc
    cases h
    exact ⟨.inl ⟨htrunc, rfl⟩, rfl⟩
  · rename_i htrunc
    obtain ⟨bytes, v, hb, hs⟩ := run_bind_eq_ok h
    obtain ⟨hread, rfl⟩ := run_read_eq_ok hb
    cases hs
    exact ⟨.inr ⟨htrunc, bytes, rfl, hread⟩, rfl⟩

theorem run_openWrite {trunc : Bool} {c : ContentId}
    (h : (P.openWrite ino trunc).run w = (.ok c, t)) (hp : w.pathOf ino = .ok p) :
    ∃ x ov, P.Opens w.overlay p (trunc = true) x c ov ∧
      t.overlay = ov.editContent c (if trunc then setLen 0 else id) ∧ t.inodes = w.inodes := by
  obtain ⟨p', v, hpath, h₁⟩ := run_bind_eq_ok h
  obtain ⟨hp', rfl⟩ := run_read_eq_ok hpath
  obtain rfl : p = p' := Except.ok.inj (hp.symm.trans hp')
  obtain ⟨_, v', hrec, h₂⟩ := run_bind_eq_ok h₁
  obtain ⟨hov, hino⟩ := run_recordChangeFile hrec
  obtain ⟨o, u, hlook, h₃⟩ := run_bind_eq_ok h₂
  obtain ⟨-, rfl⟩ := run_read_eq_ok hlook
  rw [← hov, ← hino]
  split at h₃
  · obtain ⟨b, u', hopen, h₄⟩ := run_bind_eq_ok h₃
    obtain ⟨hb, rfl⟩ := run_read_eq_ok hopen
    obtain ⟨x, bytes, hl, hc⟩ := openContent_eq_ok hb
    cases trunc with
    | true =>
      cases h₄
      exact ⟨x, _, .overlay hl hc, rfl, rfl⟩
    | false =>
      cases h₄
      exact ⟨x, _, .overlay hl hc, (Overlay.editContent_same fun _ _ => rfl).symm, rfl⟩
  · obtain ⟨r, u', hres, h₄⟩ := run_bind_eq_ok h₃
    obtain ⟨hr, rfl⟩ := run_read_eq_ok hres
    split at h₄
    · rename_i oid x
      obtain ⟨seed, u, hseed, h₅⟩ := run_bind_eq_ok h₄
      obtain ⟨hs, rfl⟩ := run_seed hseed
      obtain ⟨hc, rfl⟩ := run_atom_eq_ok h₅
      obtain rfl : Overlay.newContentId _ = c := Except.ok.inj hc
      refine ⟨x, _, .baseline hr hs, (Overlay.editContent_same fun bytes hb => ?_).symm, rfl⟩
      rw [Overlay.content_createFile] at hb
      rcases hs with ⟨rfl, rfl⟩ | ⟨hne, -⟩
      · cases hb
        rfl
      · rw [if_neg hne]
        rfl
    · cases h₄

theorem run_truncate {size : Nat} (h : (P.truncate ino size).run w = (.ok (), t))
    (hp : w.pathOf ino = .ok p) :
    ∃ x c ov, P.Opens w.overlay p (size = 0) x c ov ∧ t.overlay = ov.editContent c (setLen size) ∧
      t.inodes = w.inodes := by
  obtain ⟨p', v, hpath, h₁⟩ := run_bind_eq_ok h
  obtain ⟨hp', rfl⟩ := run_read_eq_ok hpath
  obtain rfl : p = p' := Except.ok.inj (hp.symm.trans hp')
  obtain ⟨o, u, hlook, h₂⟩ := run_bind_eq_ok h₁
  obtain ⟨-, rfl⟩ := run_read_eq_ok hlook
  split at h₂
  · obtain ⟨_, v', hrec, h₃⟩ := run_bind_eq_ok h₂
    obtain ⟨hov, hino⟩ := run_recordChangeFile hrec
    obtain ⟨b, u', hopen, h₄⟩ := run_bind_eq_ok h₃
    obtain ⟨hb, rfl⟩ := run_read_eq_ok hopen
    obtain ⟨x, bytes, hl, hc⟩ := openContent_eq_ok hb
    rw [← hov, ← hino]
    cases h₄
    exact ⟨x, b, _, .overlay hl hc, rfl, rfl⟩
  · obtain ⟨r, u', hres, h₃⟩ := run_bind_eq_ok h₂
    obtain ⟨hr, rfl⟩ := run_read_eq_ok hres
    split at h₃
    · rename_i oid x
      obtain ⟨_, v', hrec, h₄⟩ := run_bind_eq_ok h₃
      obtain ⟨hov, hino⟩ := run_recordChangeFile hrec
      obtain ⟨seed, u, hseed, h₅⟩ := run_bind_eq_ok h₄
      obtain ⟨hs, rfl⟩ := run_seed hseed
      obtain ⟨b, u', hcreate, h₆⟩ := run_bind_eq_ok h₅
      obtain ⟨hc, rfl⟩ := run_atom_eq_ok hcreate
      obtain rfl : Overlay.newContentId _ = b := Except.ok.inj hc
      rw [← hov] at hr
      rw [← hov, ← hino]
      cases h₆
      exact ⟨x, _, _, .baseline hr hs, rfl, rfl⟩
    · cases h₃

theorem run_setExecutable {x : Bool} (h : (P.setExecutable ino x).run w = (.ok (), t))
    (hp : w.pathOf ino = .ok p) : t.inodes = w.inodes ∧
      ((∃ c y, w.overlay.lookup p = some (.file c y) ∧
        t.overlay = w.overlay.step (.setExecutable p x)) ∨
      ∃ oid y bytes, P.resolve w.overlay p = .ok (some (.file (.baseline oid) y)) ∧
        P.store.readBlobRaw oid = .ok bytes ∧
        t.overlay = w.overlay.step (.createFile p x (some bytes))) := by
  obtain ⟨p', v, hpath, h₁⟩ := run_bind_eq_ok h
  obtain ⟨hp', rfl⟩ := run_read_eq_ok hpath
  obtain rfl : p = p' := Except.ok.inj (hp.symm.trans hp')
  obtain ⟨_, v', hrec, h₂⟩ := run_bind_eq_ok h₁
  obtain ⟨hov, hino⟩ := run_recordChangeFile hrec
  obtain ⟨o, u, hlook, h₃⟩ := run_bind_eq_ok h₂
  obtain ⟨hl, rfl⟩ := run_read_eq_ok hlook
  rw [← hov, ← hino]
  split at h₃
  · rename_i c y
    obtain ⟨-, rfl⟩ := run_atom_eq_ok h₃
    exact ⟨rfl, .inl ⟨c, y, Except.ok.inj hl, rfl⟩⟩
  · obtain ⟨r, u', hres, h₄⟩ := run_bind_eq_ok h₃
    obtain ⟨hr, rfl⟩ := run_read_eq_ok hres
    split at h₄
    · rename_i oid y
      obtain ⟨bytes, u, hfetch, h₅⟩ := run_bind_eq_ok h₄
      obtain ⟨hb, rfl⟩ := run_read_eq_ok hfetch
      obtain ⟨_, u', hcreate, h₆⟩ := run_bind_eq_ok h₅
      obtain ⟨-, rfl⟩ := run_atom_eq_ok hcreate
      cases h₆
      exact ⟨rfl, .inr ⟨oid, y, bytes, hr, hb, rfl⟩⟩
    · cases h₄

/-- Where a file or a symlink has moved from `src` to `dst`. -/
inductive Renames (P : Projection) (ov : Overlay) (src dst : RepoPath) : Overlay → Prop
  | entry {e : OverlayEntry} (he : ov.lookup src = some e) (hb : P.baselineResolve src = .ok none) :
    Renames P ov src dst (ov.step (.rename src dst))
  | covering {e : OverlayEntry} {r : Resolved} (he : ov.lookup src = some e)
    (hb : P.baselineResolve src = .ok (some r)) :
    Renames P ov src dst ((ov.step (.rename src dst)).step (.tombstone src))
  | clean {oid : ObjectId} {mode : GitMode} (he : ov.lookup src = none)
    (hb : P.baselineResolve src = .ok (some (baserefResolved oid mode))) (hm : mode.kind ≠ .dir) :
    Renames P ov src dst ((ov.step (.putBaseRef dst oid mode)).step (.tombstone src))

theorem run_renameFile (h : (P.renameFile src dst).run w = (.ok (), t)) :
    P.Renames w.overlay src dst t.overlay ∧ t.inodes = w.inodes.rename src dst := by
  obtain ⟨o, v, hlook, h₁⟩ := run_bind_eq_ok h
  obtain ⟨hl, rfl⟩ := run_read_eq_ok hlook
  replace hl := Except.ok.inj hl
  cases o with
  | some e =>
    obtain ⟨_, v', hmove, h₂⟩ := run_bind_eq_ok h₁
    obtain ⟨-, rfl⟩ := run_atom_eq_ok hmove
    obtain ⟨b, u, hbase, h₃⟩ := run_bind_eq_ok h₂
    obtain ⟨hb, rfl⟩ := run_read_eq_ok hbase
    cases b with
    | none =>
      cases h₃
      exact ⟨.entry hl hb, rfl⟩
    | some r =>
      cases h₃
      exact ⟨.covering hl hb, rfl⟩
  | none =>
    obtain ⟨b, u, hbase, h₂⟩ := run_bind_eq_ok h₁
    obtain ⟨hb, rfl⟩ := run_read_eq_ok hbase
    split at h₂
    · rename_i oid x
      cases h₂
      have hres : P.baselineResolve src =
          .ok (some (baserefResolved oid (if x then .executable else .regular))) := by
        cases x <;> exact hb
      refine ⟨.clean hl hres ?_, rfl⟩
      cases x <;> simp [GitMode.kind]
    · rename_i oid
      cases h₂
      have hres : P.baselineResolve src = .ok (some (baserefResolved oid .symlink)) := hb
      exact ⟨.clean hl hres (by simp [GitMode.kind]), rfl⟩
    · cases h₂

/-- Up to where `rename` goes on with a directory or with anything else. -/
theorem run_rename_begun {fuel newparent : Nat} {newname : Bytes} {flags : UInt32}
    (h : (P.rename fuel parent name newparent newname flags).run w = (.ok (), t))
    (hn : w.Names parent name src) (hn' : w.Names newparent newname dst) :
    src.Ordinary ∧ dst.Ordinary ∧ ∃ v, SameTree v w ∧
      ((∃ bt, P.resolve w.overlay src = .ok (some (.dir bt))) ∧
          (P.renameDir fuel src dst).run v = (.ok (), t) ∨
        (∀ bt, P.resolve w.overlay src ≠ .ok (some (.dir bt))) ∧
          (P.renameFile src dst).run v = (.ok (), t)) := by
  have hens : Ensures (· = w) (P.rename fuel parent name newparent newname flags)
      (fun _ t => src.Ordinary ∧ dst.Ordinary ∧ ∃ v, SameTree v w ∧
        ((∃ bt, P.resolve w.overlay src = .ok (some (.dir bt))) ∧
            (P.renameDir fuel src dst).run v = (.ok (), t) ∨
          (∀ bt, P.resolve w.overlay src ≠ .ok (some (.dir bt))) ∧
            (P.renameFile src dst).run v = (.ok (), t))) fun _ => True := by
    refine ensures_rename (fun _ _ => trivial) (fun src' dst' bt hs hd hords hordd hr => ?_)
      fun src' dst' r hs hd hords hordd hr hdir => ?_
    · obtain rfl := hn.unique hs
      obtain rfl := hn'.unique hd
      refine ensures_weaken ensures_run (fun _ hv => hv) fun _ t ht => ?_
      obtain ⟨v, hv, hrun⟩ := ht
      exact ⟨hords, hordd, v, hv, .inl ⟨⟨bt, hr⟩, hrun⟩⟩
    · obtain rfl := hn.unique hs
      obtain rfl := hn'.unique hd
      refine ensures_weaken ensures_run (fun _ hv => hv) fun _ t ht => ?_
      obtain ⟨v, hv, hrun⟩ := ht
      exact ⟨hords, hordd, v, hv, .inr ⟨fun bt hbt => hdir bt (Except.ok.inj (hr.symm.trans hbt)), hrun⟩⟩
  have hh := hens w rfl
  rw [h] at hh
  exact hh

theorem run_rename {fuel newparent : Nat} {newname : Bytes} {flags : UInt32}
    (h : (P.rename fuel parent name newparent newname flags).run w = (.ok (), t))
    (hn : w.Names parent name src) (hn' : w.Names newparent newname dst)
    (hdir : ∀ bt, P.resolve w.overlay src ≠ .ok (some (.dir bt))) :
    src.Ordinary ∧ dst.Ordinary ∧ P.Renames w.overlay src dst t.overlay ∧
      t.inodes = w.inodes.rename src dst := by
  obtain ⟨hords, hordd, v, ⟨hov, hino⟩, ⟨⟨bt, hbt⟩, -⟩ | ⟨-, hrun⟩⟩ := run_rename_begun h hn hn'
  · exact (hdir bt hbt).elim
  · rw [← hov, ← hino]
    exact ⟨hords, hordd, run_renameFile hrun⟩

end Projection

end LazyMount
