import Hypertag.KnowledgeBase.Entry

/-!
# Known attributes

The `hx-` attributes in the order in which they are suggested.
-/

namespace Hypertag.KnowledgeBase

def attributes : List Entry :=
  [⟨"hx-get",
    "Issues a `GET` request to the given URL and swaps the response into the DOM.\n\n```html\n" ++
    "<button hx-get=\"/contacts\">Load</button>\n```"⟩,
   ⟨"hx-post",
    "Issues a `POST` request to the given URL. Inside a form, the form values are sent.\n\n" ++
    "```html\n<button hx-post=\"/contacts\">Save</button>\n```"⟩,
   ⟨"hx-put",
    "Issues a `PUT` request to the given URL.\n\n```html\n<button " ++
    "hx-put=\"/contacts/1\">Update</button>\n```"⟩,
   ⟨"hx-patch",
    "Issues a `PATCH` request to the given URL.\n\n```html\n<button " ++
    "hx-patch=\"/contacts/1\">Patch</button>\n```"⟩,
   ⟨"hx-delete",
    "Issues a `DELETE` request to the given URL.\n\n```html\n<button " ++
    "hx-delete=\"/contacts/1\">Remove</button>\n```"⟩,
   ⟨"hx-trigger",
    "Which event starts the request. Accepts modifiers such as `changed`, `delay:500ms`, " ++
    "`once` and polling with `every 2s`.\n\n```html\n<input hx-get=\"/search\" " ++
    "hx-trigger=\"keyup changed delay:500ms\">\n```"⟩,
   ⟨"hx-target",
    "Element that receives the response, as a CSS selector or an extended selector (`this`, " ++
    "`closest`, `find`, `next`, `previous`).\n\n```html\n<button hx-get=\"/info\" " ++
    "hx-target=\"#details\">Show</button>\n```"⟩,
   ⟨"hx-swap",
    "How the response is placed relative to the target. Defaults to `innerHTML`.\n\n```html\n" ++
    "<div hx-get=\"/row\" hx-swap=\"outerHTML\"></div>\n```"⟩,
   ⟨"hx-swap-oob",
    "Marks an element in a response to be swapped in by id, out of band, somewhere other than " ++
    "the target.\n\n```html\n<div id=\"alerts\" hx-swap-oob=\"true\">Saved</div>\n```"⟩,
   ⟨"hx-select",
    "CSS selector that picks the part of the response to swap in.\n\n```html\n<button " ++
    "hx-get=\"/page\" hx-select=\"#content\">Load</button>\n```"⟩,
   ⟨"hx-select-oob",
    "Comma separated selectors of response elements to swap out of band.\n\n```html\n<button " ++
    "hx-get=\"/page\" hx-select-oob=\"#alerts\">Load</button>\n```"⟩,
   ⟨"hx-boost",
    "Turns regular anchors and forms below this element into AJAX requests that replace the " ++
    "body.\n\n```html\n<nav hx-boost=\"true\"><a href=\"/about\">About</a></nav>\n```"⟩,
   ⟨"hx-push-url",
    "Pushes the request URL (or a given URL) into the browser history.\n\n```html\n<a " ++
    "hx-get=\"/page/2\" hx-push-url=\"true\">Next</a>\n```"⟩,
   ⟨"hx-replace-url",
    "Replaces the current URL in the location bar without adding a history entry.\n\n```html\n" ++
    "<a hx-get=\"/page/2\" hx-replace-url=\"true\">Next</a>\n```"⟩,
   ⟨"hx-confirm",
    "Shows a `confirm()` dialog with the given text before the request is sent.\n\n```html\n" ++
    "<button hx-delete=\"/account\" hx-confirm=\"Are you sure?\">Delete</button>\n```"⟩,
   ⟨"hx-disable",
    "Disables htmx processing for this element and everything below it."⟩,
   ⟨"hx-disabled-elt",
    "Elements that get the `disabled` attribute while the request is in flight.\n\n```html\n" ++
    "<button hx-post=\"/save\" hx-disabled-elt=\"this\">Save</button>\n```"⟩,
   ⟨"hx-disinherit",
    "Stops the listed attributes (or `*`) from being inherited by child elements."⟩,
   ⟨"hx-encoding",
    "Request encoding. Set to `multipart/form-data` for file uploads."⟩,
   ⟨"hx-ext",
    "Comma separated list of htmx extensions to enable on this element and its children.\n\n" ++
    "```html\n<body hx-ext=\"response-targets\">\n```"⟩,
   ⟨"hx-headers",
    "Extra request headers as a JSON object.\n\n```html\n<div hx-get=\"/data\" " ++
    "hx-headers='\x7b\"X-Tenant\": \"acme\"\x7d'></div>\n```"⟩,
   ⟨"hx-history",
    "Set to `false` to keep this page out of the history cache, for pages with sensitive data."⟩,
   ⟨"hx-history-elt",
    "Element whose content is snapshotted for history instead of the body."⟩,
   ⟨"hx-include",
    "Includes the values of other elements in the request, by CSS selector.\n\n```html\n" ++
    "<button hx-post=\"/filter\" hx-include=\"#filters\">Apply</button>\n```"⟩,
   ⟨"hx-indicator",
    "Element that gets the `htmx-request` class while the request runs.\n\n```html\n<button " ++
    "hx-get=\"/slow\" hx-indicator=\"#spinner\">Go</button>\n```"⟩,
   ⟨"hx-inherit",
    "Opts child elements into inheriting the listed attributes when inheritance is disabled " ++
    "globally."⟩,
   ⟨"hx-params",
    "Filters the parameters that are sent: `*`, `none`, `not a,b` or a list of names."⟩,
   ⟨"hx-preserve",
    "Keeps this element unchanged across swaps. The element needs an `id`."⟩,
   ⟨"hx-prompt",
    "Shows a `prompt()` before the request; the answer is sent in the `HX-Prompt` header."⟩,
   ⟨"hx-request",
    "Request options such as `timeout`, `credentials` and `noHeaders`, as JSON."⟩,
   ⟨"hx-sync",
    "Coordinates requests between elements, for example `closest form:abort`."⟩,
   ⟨"hx-validate",
    "Validates the element with the HTML5 validation API before the request is sent."⟩,
   ⟨"hx-vals",
    "Extra values to submit, as JSON (or `js:` prefixed expression).\n\n```html\n<button " ++
    "hx-post=\"/vote\" hx-vals='\x7b\"choice\": \"yes\"\x7d'>Yes</button>\n```"⟩,
   ⟨"hx-on",
    "Inline event handlers: `hx-on:click=\"...\"` or `hx-on::after-request=\"...\"` for htmx " ++
    "events."⟩,
   ⟨"hx-lsp",
    "Links this element to a tag declared in a backend or JavaScript comment " ++
    "(`hx@create_user`). Go to definition jumps to the declaration.\n\n```html\n<button " ++
    "hx-post=\"/users\" hx-lsp=\"hx@create_user\">Create</button>\n```"⟩]

end Hypertag.KnowledgeBase
