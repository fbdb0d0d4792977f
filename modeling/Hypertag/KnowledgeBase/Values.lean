import Hypertag.KnowledgeBase.Entry

/-!
# Known values

The values that an attribute is usually given.
-/

namespace Hypertag.KnowledgeBase

def values : List (Text × List Entry) :=
  [("hx-swap",
    [⟨"innerHTML",
      "Replace the inner html of the target element."⟩,
     ⟨"outerHTML",
      "Replace the entire target element with the response."⟩,
     ⟨"beforebegin",
      "Insert the response before the target element."⟩,
     ⟨"afterbegin",
      "Insert the response before the first child of the target element."⟩,
     ⟨"beforeend",
      "Insert the response after the last child of the target element."⟩,
     ⟨"afterend",
      "Insert the response after the target element."⟩,
     ⟨"delete",
      "Delete the target element regardless of the response."⟩,
     ⟨"none",
      "Do not append content from the response. Out of band swaps still run."⟩]),
   ("hx-target",
    [⟨"this",
      "The element that carries the `hx-target` attribute."⟩,
     ⟨"closest ",
      "`closest <selector>` finds the nearest ancestor (or the element itself) matching the " ++
      "selector."⟩,
     ⟨"find ",
      "`find <selector>` finds the first child descendant matching the selector."⟩,
     ⟨"next",
      "The next element sibling, or with `next <selector>` the next element matching it."⟩,
     ⟨"previous",
      "The previous element sibling, or with `previous <selector>` the previous element " ++
      "matching it."⟩]),
   ("hx-trigger",
    [⟨"click",
      "Trigger on click."⟩,
     ⟨"change",
      "Trigger when the value changes."⟩,
     ⟨"submit",
      "Trigger when the form is submitted."⟩,
     ⟨"load",
      "Trigger once when the element is loaded."⟩,
     ⟨"revealed",
      "Trigger when the element is scrolled into the viewport."⟩,
     ⟨"intersect",
      "Trigger when the element first intersects the viewport."⟩,
     ⟨"every ",
      "`every <interval>` polls, e.g. `every 2s`."⟩,
     ⟨"keyup",
      "Trigger on key up. Often combined with `changed delay:500ms`."⟩]),
   ("hx-push-url",
    [⟨"true",
      "Push the fetched URL into history."⟩,
     ⟨"false",
      "Do not push anything, overriding an inherited value."⟩]),
   ("hx-replace-url",
    [⟨"true",
      "Replace the current URL with the fetched URL."⟩,
     ⟨"false",
      "Do not replace the URL, overriding an inherited value."⟩]),
   ("hx-boost",
    [⟨"true",
      "Boost links and forms below this element."⟩,
     ⟨"false",
      "Opt this subtree out of an inherited boost."⟩]),
   ("hx-history",
    [⟨"false",
      "Keep this page out of the history cache."⟩]),
   ("hx-encoding",
    [⟨"multipart/form-data",
      "Send the request as multipart, needed for file uploads."⟩]),
   ("hx-params",
    [⟨"*",
      "Send all parameters (the default)."⟩,
     ⟨"none",
      "Send no parameters."⟩,
     ⟨"not ",
      "`not <names>` sends everything except the listed parameters."⟩]),
   ("hx-sync",
    [⟨"drop",
      "Drop this request if one is already in flight."⟩,
     ⟨"abort",
      "Abort this request if another one starts."⟩,
     ⟨"replace",
      "Abort the in-flight request and send this one."⟩,
     ⟨"queue",
      "Queue this request until the in-flight one finishes."⟩]),
   ("hx-disinherit",
    [⟨"*",
      "Disable inheritance of every attribute for children."⟩])]

end Hypertag.KnowledgeBase
