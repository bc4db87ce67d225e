import HahaDogOps.Shell.Read
/-!
# The docker daemon of the build host

The part of the daemon the deploy scripts talk to: one container name (`ZZZ`), the local images and
the registry they are pushed to. A request either takes effect or fails and changes nothing.

| here | there |
| --- | --- |
| `Image`          | the image started from, and the artefacts put into it, by place |
| `Request.run`    | `docker run -dt --name ZZZ base`: fails when the name is taken |
| `Request.cp`     | `docker cp file ZZZ:/usr/local/tomcat/webapps/`: fails without the file or the container |
| `Request.stop`, `Request.commit` | fail without the container |
| `Request.build`  | `docker build -t ref .` with a Dockerfile that adds the artefact: fails without it |
| `Request.push`   | fails when there is no local image `ref` |
| `Request.rm`     | fails when the container is absent or running |
-/

namespace HahaDog.Deploy

variable {α : Type}

/-- An image; `α` is what a build artefact holds. -/
structure Image (α : Type) where
  base : Text
  files : List (Text × α)
deriving DecidableEq, Repr

/-- A file put at `name`, in place of what was there. -/
def putFile (name : Text) (x : α) (files : List (Text × α)) : List (Text × α) :=
  (name, x) :: files.filter fun f => f.1 ≠ name

structure Container (α : Type) where
  image : Image α
  running : Bool
deriving DecidableEq, Repr

structure Daemon (α : Type) where
  /-- The container `ZZZ`. -/
  zzz : Option (Container α)
  /-- Local images, by `repository:tag`. -/
  images : Text → Option (Image α)
  registry : Text → Option (Image α)

inductive Request (α : Type) where
  | run (base : Text)
  | cp (name : Text) (file : Option α)
  | stop
  | commit (ref : Text)
  | build (ref base name : Text) (file : Option α)
  | push (ref : Text)
  | rm
deriving DecidableEq, Repr

/-- The daemon after a request; `none` when it fails. -/
def Daemon.request (d : Daemon α) : Request α → Option (Daemon α)
  | .run base =>
    match d.zzz with
    | none => some { d with zzz := some ⟨⟨base, []⟩, true⟩ }
    | some _ => none
  | .cp name file =>
    match d.zzz, file with
    | some c, some x => some { d with zzz := some { c with image := ⟨c.image.base, putFile name x c.image.files⟩ } }
    | _, _ => none
  | .stop => d.zzz.map fun c => { d with zzz := some { c with running := false } }
  | .commit ref => d.zzz.map fun c => { d with images := Function.update d.images ref (some c.image) }
  | .build ref base name file =>
    file.map fun x => { d with images := Function.update d.images ref (some ⟨base, [(name, x)]⟩) }
  | .push ref => (d.images ref).map fun i => { d with registry := Function.update d.registry ref (some i) }
  | .rm =>
    match d.zzz with
    | some ⟨_, false⟩ => some { d with zzz := none }
    | _ => none

end HahaDog.Deploy
