import ObjectTracking.Mail.Layouts
import ObjectTracking.ObjectType
/-!
Folders.
-/
set_option autoImplicit false

namespace ObjectTracking.Mail.Folder

def id : Property := .composite "FolderId" "folder:FolderId" folderId

def parentId : Property := .composite "ParentFolderId" "folder:ParentFolderId" folderId

def folderClass : Property :=
  (Property.scalar "FolderClass" "folder:FolderClass" .text).withFlags [.settable, .updatable]

def displayName : Property :=
  (Property.scalar "DisplayName" "folder:DisplayName" .text).withFlags Flag.mutable

/-- A number that the server counts. -/
def count (element uri : String) : Property := (Property.scalar element uri .integer).notNullable

def effectiveRightsOf : Property :=
  .composite "EffectiveRights" "folder:EffectiveRights" effectiveRights

def policyTag : Property :=
  ((Property.composite "PolicyTag" "folder:PolicyTag" retentionTag).withFlags
    Flag.mutable).introducedIn .exchange2013

def permissionSet : Property :=
  (((Property.collection "PermissionSet" "folder:PermissionSet" permission
    "Permission").contained "Permissions").withFlags
      [.settable, .updatable, .explicitLoad]).createdOnRead (catalog [])

def type : ObjectType where
  element := "Folder"
  target := .folder
  members :=
    [⟨.identity, id⟩, ⟨.summary, parentId⟩, ⟨.summary, folderClass⟩, ⟨.summary, displayName⟩,
      ⟨.summary, count "TotalCount" "folder:TotalCount"⟩,
      ⟨.summary, count "ChildFolderCount" "folder:ChildFolderCount"⟩,
      ⟨.full, effectiveRightsOf⟩, ⟨.full, policyTag⟩, ⟨.none, permissionSet⟩,
      ⟨.full, count "UnreadCount" "folder:UnreadCount"⟩]

end ObjectTracking.Mail.Folder
